import ProgPara.Network.Reachable
import Mathlib.Algebra.Order.BigOperators.Group.Finset
import Mathlib.Order.OrderIsoNat

/-!
# Termination

A count of the calls each process has left, lowered by every one of its calls,
bounds the runs of the whole network: a launch starts a process that was
counted in advance, and the end of a waiting send is counted apart from its
start.
-/

namespace ProgPara.Network

open Function Relation

variable {P M E : Type*} {S : P → Type*}

def Program.Decreasing (prog : Program P M E S) (μ : (p : P) → S p → ℕ) : Prop :=
  ∀ p s s', (prog.act p s).After s' → μ p s' < μ p s

/-- The steps a process has left: twice its calls, and one more when it is still
to be launched or to leave a send. -/
def Status.weight {T : Type*} (μ : T → ℕ) (entry : T) : Status P T → ℕ
  | .absent => 2 * μ entry + 1
  | .ready s => 2 * μ s
  | .blocked _ s => 2 * μ s + 1

namespace Program

variable (prog : Program P M E S) (μ : (p : P) → S p → ℕ)

def weightAt (c : Config P M S) (p : P) : ℕ :=
  (c.status p).weight (μ p) (prog.entry p)

variable [Fintype P]

def weight (c : Config P M S) : ℕ := ∑ p, prog.weightAt μ c p

def stepsLeft (g : State P M E S) : ℕ :=
  if g.aborted.isSome then 0 else prog.weight μ g.config + 1

variable {prog μ} {b : Bool} {p : P} {c : Config P M S} {e : Event P M (S p)}

omit [Fintype P] in
theorem Decreasing.lt (hμ : prog.Decreasing μ) {s s' : S p} {a : Action P M E (S p)}
    (hact : prog.act p s = a) (h : a.After s') : μ p s' < μ p s :=
  hμ p s s' (hact ▸ h)

omit [Fintype P] in
theorem Offers.weight_next_lt (h : prog.Offers b p c e) (hμ : prog.Decreasing μ) :
    e.next.weight (μ p) (prog.entry p) < prog.weightAt μ c p := by
  cases h with
  | release hst _ => simp [weightAt, hst, Status.weight]
  | tau hst hact =>
      have hlt := hμ.lt hact rfl
      simp only [weightAt, hst, Status.weight]
      omega
  | spawn hst hact =>
      have hlt := hμ.lt hact rfl
      simp only [weightAt, hst, Status.weight]
      omega
  | send hst hact =>
      have hlt := hμ.lt hact rfl
      cases b <;> simp only [weightAt, hst, Status.weight, if_true, if_false,
        Bool.false_eq_true] <;> omega
  | @recv _ _ _ m _ hst hact _ =>
      have hlt := hμ.lt hact ⟨m, rfl⟩
      simp only [weightAt, hst, Status.weight]
      omega

variable [DecidableEq P]

omit [Fintype P] in
theorem weightAt_apply_self : prog.weightAt μ (prog.apply p e c) p =
    e.next.weight (μ p) (prog.entry p) := by
  rw [weightAt, apply_status_self]

omit [Fintype P] in
theorem weightAt_apply_le_of_ne {q : P} (hq : q ≠ p) :
    prog.weightAt μ (prog.apply p e c) q ≤ prog.weightAt μ c q := by
  rw [weightAt, weightAt, apply_status_of_ne hq]
  split
  · by_cases habs : c.status q = .absent
    · rw [launch_of_absent habs, habs]
      split <;> simp [Status.weight]
    · rw [launch_of_ne_absent habs]
  · exact le_rfl

theorem Offers.weight_lt (h : prog.Offers b p c e) (hμ : prog.Decreasing μ) :
    prog.weight μ (prog.apply p e c) < prog.weight μ c := by
  have hp : prog.weightAt μ (prog.apply p e c) p < prog.weightAt μ c p := by
    rw [weightAt_apply_self]
    exact h.weight_next_lt hμ
  refine Finset.sum_lt_sum (fun q _ => ?_) ⟨p, Finset.mem_univ p, hp⟩
  rcases eq_or_ne q p with rfl | hq
  · exact hp.le
  · exact weightAt_apply_le_of_ne hq

variable {modes : Set Bool} {g g' : State P M E S}

theorem Decreasing.stepsLeft_lt (hμ : prog.Decreasing μ) (h : prog.Step modes g g') :
    prog.stepsLeft μ g' < prog.stepsLeft μ g := by
  obtain ⟨ha, ⟨p, a, _, rfl⟩ | ⟨b, _, p, e, he, rfl⟩⟩ := step_cases h
  · simp [stepsLeft, ha]
  · have hlt := he.weight_lt hμ
    simp only [stepsLeft, ha, Option.isSome_none, Bool.false_eq_true, if_false]
    omega

theorem Decreasing.no_infinite_run (hμ : prog.Decreasing μ)
    (f : ℕ → State P M E S) : ¬∀ k, prog.Step modes (f k) (f (k + 1)) := by
  intro hf
  have hanti : StrictAnti fun k => prog.stepsLeft μ (f k) :=
    strictAnti_nat_of_succ_lt fun k => hμ.stepsLeft_lt (hf k)
  exact not_strictAnti_of_wellFoundedLT _ hanti

theorem Decreasing.exists_terminal (hμ : prog.Decreasing μ) (modes : Set Bool)
    (g : State P M E S) :
    ∃ g', ReflTransGen (prog.Step modes) g g' ∧ prog.Terminal modes g' := by
  induction hn : prog.stepsLeft μ g using Nat.strong_induction_on generalizing g with
  | _ n ih =>
      by_cases ht : prog.Terminal modes g
      · exact ⟨g, .refl, ht⟩
      · obtain ⟨g₁, h₁⟩ : ∃ g₁, prog.Step modes g g₁ := by
          simpa [Terminal] using ht
        have hlt := hμ.stepsLeft_lt h₁
        obtain ⟨g', hr, ht'⟩ := ih _ (by omega) g₁ rfl
        exact ⟨g', .head h₁ hr, ht'⟩

/-- A goal is reached as soon as some step that keeps the invariant is there
whenever the goal is not. -/
theorem Decreasing.reaches (hμ : prog.Decreasing μ) {I G : Config P M S → Prop}
    (hb : b ∈ modes) (hstep : ∀ c, I c → ¬G c →
      ∃ p e, prog.Offers b p c e ∧ I (prog.apply p e c)) (hc : I c) :
    ∃ c', ReflTransGen (prog.Step modes) ⟨c, none⟩ ⟨c', none⟩ ∧ I c' ∧ G c' := by
  induction hn : prog.weight μ c using Nat.strong_induction_on generalizing c with
  | _ n ih =>
      by_cases hG : G c
      · exact ⟨c, .refl, hc, hG⟩
      · obtain ⟨p, e, he, hc₁⟩ := hstep c hc hG
        have hlt := he.weight_lt hμ
        obtain ⟨c', hr, hc', hG'⟩ := ih _ (by omega) hc₁ rfl
        exact ⟨c', .head (he.step hb) hr, hc', hG'⟩

end Program

end ProgPara.Network
