import ProgPara.Example.Systeme
import ProgPara.Network.Termination

/-!
# Every run is finite

The calls a process has left are bounded by its control point and its loop
counter, whatever else its state holds.
-/

namespace ProgPara.Example

open Memory Network

variable {P : Type} {n : ℕ}

/-- A bound on the calls the father has left. -/
def Pere.restant (s : Pere P) : ℕ :=
  match s.point with
  | .init => 13
  | .commSize => 12
  | .commSpawnMultiple => 11
  | .sendAmbiante => 10
  | .sendDepart => 6 + (4 - s.i).toNat
  | .recv => 1 + (4 - s.i).toNat
  | .finalize => 0

def Fils.restant (f : Fils P) : ℕ :=
  match f.point with
  | .init => 5
  | .commGetParent => 4
  | .commRank => 3
  | .recv => 2
  | .send => 1
  | .finalize => 0

theorem restant_boucleReception (s : Pere P) :
    (boucleReception s).restant ≤ 1 + (4 - s.i).toNat := by
  unfold boucleReception
  split
  · exact le_rfl
  · exact Nat.zero_le _

theorem restant_boucleReception_lt {s t : Pere P} (hp : s.point = .recv)
    (hi : t.i = s.i + 1) : (boucleReception t).restant < s.restant := by
  have hs : s.restant = 1 + (4 - s.i).toNat := by simp [Pere.restant, hp]
  rw [hs]
  unfold boucleReception
  split
  · have ht : ({ t with point := .recv } : Pere P).restant = 1 + (4 - t.i).toNat := rfl
    omega
  · have ht : ({ t with
        point := .finalize
        stdout := t.stdout ++ ["Pere : Tous les chars ont été recus.\n"] } :
        Pere P).restant = 0 := rfl
    omega

theorem restant_boucleEnvoi (s : Pere P) (h1 : 1 ≤ s.i) :
    (boucleEnvoi s).restant < 10 := by
  unfold boucleEnvoi
  split
  · have hs : ({ s with point := .sendDepart } : Pere P).restant = 6 + (4 - s.i).toNat :=
      rfl
    omega
  · have hle := restant_boucleReception ({ s with i := 0 } : Pere P)
    have hi : (4 - ({ s with i := 0 } : Pere P).i).toNat = 4 := rfl
    omega

theorem restant_boucleEnvoi_lt {s t : Pere P} (hp : s.point = .sendDepart)
    (hi : t.i = s.i + 1) : (boucleEnvoi t).restant < s.restant := by
  have hs : s.restant = 6 + (4 - s.i).toNat := by simp [Pere.restant, hp]
  rw [hs]
  unfold boucleEnvoi
  split
  · have ht : ({ t with point := .sendDepart } : Pere P).restant = 6 + (4 - t.i).toNat :=
      rfl
    omega
  · have hle := restant_boucleReception ({ t with i := 0 } : Pere P)
    have hzero : (4 - ({ t with i := 0 } : Pere P).i).toNat = 4 := rfl
    omega

theorem restant_jalon1 {enfants : Mpi.Intercomm P} {frame : Frame} {s s' : Pere P}
    (h : (jalon1 enfants frame s).After s') : s'.restant < s.restant := by
  unfold jalon1 at h
  split at h
  · rename_i hp
    obtain rfl : s' = { s with point := .commSize } := h
    simp [Pere.restant, hp]
  · rename_i hp
    obtain ⟨_, _, rfl⟩ := Mpi.after_commSize h
    simp [Pere.restant, hp]
  · rename_i hp
    obtain ⟨_, _, rfl⟩ := Mpi.after_commSpawnMultiple h
    simp [Pere.restant, hp]
  · rename_i hp
    obtain ⟨_, rfl⟩ := Mpi.after_send h
    have hs : s.restant = 10 := by simp [Pere.restant, hp]
    rw [hs]
    exact restant_boucleEnvoi _ le_rfl
  · rename_i hp
    obtain ⟨_, rfl⟩ := Mpi.after_send h
    exact restant_boucleEnvoi_lt hp rfl
  · rename_i hp
    obtain ⟨_, _, rfl⟩ := Mpi.after_recv h
    exact restant_boucleReception_lt hp rfl
  · cases h

theorem restant_fils {textes : Textes} {parent : Mpi.Comm P} {rank : Nat} {frame : Frame}
    {f f' : Fils P} (h : (fils textes parent rank frame f).After f') :
    f'.restant < f.restant := by
  unfold fils at h
  split at h
  · rename_i hp
    obtain rfl : f' = { f with point := .commGetParent } := h
    simp [Fils.restant, hp]
  · rename_i hp
    obtain rfl : f' = { f with point := .commRank, parent := parent } := h
    simp [Fils.restant, hp]
  · rename_i hp
    obtain ⟨_, _, rfl⟩ := Mpi.after_commRank h
    split <;> simp [Fils.restant, hp]
  · rename_i hp
    obtain ⟨_, _, rfl⟩ := Mpi.after_recv h
    simp [Fils.restant, hp]
  · rename_i hp
    obtain ⟨_, rfl⟩ := Mpi.after_send h
    simp [Fils.restant, hp]
  · cases h

def restant (n : ℕ) : (p : Proc n) → Local n p → ℕ
  | .pere => Pere.restant
  | .fils _ => Fils.restant

theorem decreasing (frames : Proc n → Frame) :
    (systeme n frames).Decreasing (restant n) := by
  rintro (_ | r) s s' h
  · exact restant_jalon1 h
  · change (code (programme r) _ _ _ s).After s' at h
    cases hp : programme r with
    | coordinateur => exact restant_fils (hp ▸ h)
    | prg1 => exact restant_fils (hp ▸ h)

end ProgPara.Example
