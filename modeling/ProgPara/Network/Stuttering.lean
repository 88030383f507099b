import Mathlib.Logic.Relation

/-!
# Simulations that stutter

A step of the lower machine is one of the upper machine, or none there and then it
lowers a number.  Runs go over to the upper machine, and they end when its runs do.
-/

namespace ProgPara.Network

open Relation

variable {A B : Type*}

def Stutters (r : A → B → Prop) (low : A → A → Prop) (high : B → B → Prop)
    (ν : A → Nat) : Prop :=
  ∀ a b a', r a b → low a a' → ∃ b', r a' b' ∧ (high b b' ∨ b' = b ∧ ν a' < ν a)

namespace Stutters

variable {r : A → B → Prop} {low : A → A → Prop} {high : B → B → Prop} {ν : A → Nat}
  {a a' : A} {b : B}

theorem reaches (hs : Stutters r low high ν) (hab : r a b) (hrun : ReflTransGen low a a') :
    ∃ b', r a' b' ∧ ReflTransGen high b b' := by
  induction hrun with
  | refl => exact ⟨b, hab, .refl⟩
  | tail _ hstep ih =>
      obtain ⟨c, hc, hrun⟩ := ih
      obtain ⟨c', hc', hhigh | ⟨rfl, -⟩⟩ := hs _ c _ hc hstep
      · exact ⟨c', hc', hrun.tail hhigh⟩
      · exact ⟨c', hc', hrun⟩

/-- If every step of the upper machine lowers a number too, every run of the lower
machine ends. -/
theorem no_infinite_run (hs : Stutters r low high ν) {μ : B → Nat}
    (hμ : ∀ b b', high b b' → μ b' < μ b) (f : Nat → A) (hb : r (f 0) b) :
    ¬∀ k, low (f k) (f (k + 1)) := by
  intro hf
  have hnone : ∀ m n k b, μ b = m → ν (f k) = n → ¬r (f k) b := by
    intro m
    induction m using Nat.strongRecOn with
    | _ m ihm =>
        intro n
        induction n using Nat.strongRecOn with
        | _ n ihn =>
            intro k b hm hn hr
            obtain ⟨b', hr', hhigh | ⟨rfl, hlt⟩⟩ := hs _ b _ hr (hf k)
            · have hlt := hμ b b' hhigh
              exact ihm (μ b') (by omega) _ (k + 1) b' rfl rfl hr'
            · exact ihn (ν (f (k + 1))) (by omega) (k + 1) b' hm rfl hr'
  exact hnone (μ b) (ν (f 0)) 0 b rfl rfl hb

end Stutters

end ProgPara.Network
