import ProgPara.Network.Reachable

/-!
# Waiting sends refine buffered ones

Forgetting that a sender waits turns every run into a run in which all sends
are buffered: the waiting send becomes a buffered one and the end of the wait
becomes no step at all.  An invariant of the buffered runs therefore holds of
every run, with the waiting senders taken to be past their send.
-/

namespace ProgPara.Network

open Function Relation

variable {P M E : Type*} {S : P → Type*}

def Config.settled (c : Config P M S) : Config P M S :=
  { c with status := fun p => (c.status p).settled }

def Event.settled {T : Type*} (e : Event P M T) : Event P M T :=
  { e with next := e.next.settled }

@[simp] theorem Config.settled_status (c : Config P M S) (p : P) :
    c.settled.status p = (c.status p).settled := rfl

theorem Config.settled_eq_self {c : Config P M S}
    (h : ∀ p q s, c.status p ≠ .blocked q s) : c.settled = c := by
  refine Config.ext ?_ rfl rfl rfl
  funext p
  rw [settled_status]
  cases hp : c.status p with
  | absent => rfl
  | ready s => rfl
  | blocked q s => exact absurd hp (h p q s)

namespace Program

variable {prog : Program P M E S} {b : Bool} {p : P} {c : Config P M S}
  {e : Event P M (S p)}

theorem aborts_settled {a : E} (h : prog.aborts p c = some a) :
    prog.aborts p c.settled = some a := by
  obtain ⟨s, hst, hact⟩ := aborts_eq_some_iff.mp h
  exact aborts_eq_some_iff.mpr ⟨s, by simp [hst], hact⟩

theorem init_settled : prog.init.config.settled = prog.init.config := by
  refine Config.settled_eq_self fun p q s => ?_
  simp only [init]
  split <;> simp

variable [DecidableEq P]

theorem launch_settled (p q : P) (st : (q : P) → Status P (S q)) :
    (prog.launch p st q).settled = prog.launch p (fun q => (st q).settled) q := by
  by_cases hq : st q = .absent
  · rw [launch_of_absent hq, launch_of_absent (by simp [hq])]
    split <;> rfl
  · rw [launch_of_ne_absent hq, launch_of_ne_absent]
    simpa only [ne_eq, Status.settled_eq_absent] using hq

theorem apply_settled (p : P) (e : Event P M (S p)) (c : Config P M S) :
    (prog.apply p e c).settled = prog.apply p e.settled c.settled := by
  refine Config.ext ?_ rfl rfl rfl
  funext q
  rcases eq_or_ne q p with rfl | hq
  · simp [Event.settled]
  · rw [Config.settled_status, apply_status_of_ne hq, apply_status_of_ne hq]
    change _ = if e.launches then prog.launch p (fun q => (c.status q).settled) q else _
    rw [← launch_settled]
    split <;> rfl

/-- A step either ends a wait, and then changes nothing that remains once waits
are forgotten, or is a buffered step of the configuration without waits. -/
theorem Offers.settled (h : prog.Offers b p c e) :
    (prog.apply p e c).settled = c.settled ∨
      (prog.Offers true p c.settled e.settled ∧
        (prog.apply p e c).settled = prog.apply p e.settled c.settled) := by
  cases h with
  | @release q s hst hchan =>
      left
      refine Config.ext ?_ rfl rfl rfl
      funext q
      rcases eq_or_ne q p with rfl | hq
      · simp [hst]
      · simp [apply_status_of_ne hq]
  | tau hst hact =>
      exact .inr ⟨.tau (by simp [hst]) hact, apply_settled _ _ _⟩
  | spawn hst hact =>
      exact .inr ⟨.spawn (by simp [hst]) hact, apply_settled _ _ _⟩
  | @send s s' q m hst hact =>
      refine .inr ⟨?_, apply_settled _ _ _⟩
      have hsend : prog.Offers true p c.settled
          { next := .ready s', transfer := .out q m } := .send (by simp [hst]) hact
      cases b <;> exact hsend
  | recv hst hact hchan =>
      exact .inr ⟨.recv (by simp [hst]) hact hchan, apply_settled _ _ _⟩

variable {modes : Set Bool} {g : State P M E S}

structure EagerInvariant (prog : Program P M E S) (I : Config P M S → Prop) : Prop where
  init : I prog.init.config
  step {p : P} {e : Event P M (S p)} {c : Config P M S} :
    I c → prog.Offers true p c e → I (prog.apply p e c)

/-- An invariant of the buffered runs holds of every run once its waits are
forgotten. -/
theorem EagerInvariant.settled {I : Config P M S → Prop} (hI : prog.EagerInvariant I)
    (h : prog.Reachable modes g) : I g.config.settled := by
  refine h.invariant (I := fun c => I c.settled) ?_ fun b _ p e c hc he => ?_
  · rw [init_settled]
    exact hI.init
  · rcases he.settled with heq | ⟨he', heq⟩
    · rw [heq]
      exact hc
    · rw [heq]
      exact hI.step hc he'

omit [DecidableEq P] in
theorem Offers.next_of_blocked {q : P} {s : S p} (h : prog.Offers b p c e)
    (hst : e.next = .blocked q s) : ∃ m, e.transfer = .out q m := by
  cases h with
  | send _ hact =>
      cases b <;> cases hst
      exact ⟨_, rfl⟩
  | _ => cases hst

theorem Reachable.sent_of_blocked {q : P} {s : S p} (h : prog.Reachable modes g)
    (hst : g.config.status p = .blocked q s) : g.config.sent p q ≠ [] := by
  refine h.invariant (I := fun c => ∀ p q s, c.status p = .blocked q s →
    c.sent p q ≠ []) ?_ ?_ p q s hst
  · intro p q s hst
    simp only [init] at hst
    split at hst <;> cases hst
  · intro b _ p e c hc he r q s hst
    rcases eq_or_ne r p with rfl | hr
    · rw [apply_status_self] at hst
      obtain ⟨m, hm⟩ := he.next_of_blocked hst
      simp [apply, hm, Transfer.sent]
    · refine Transfer.sent_ne_nil (hc r q s ?_)
      rw [apply_status_of_ne hr] at hst
      split at hst
      · by_cases habs : c.status r = .absent
        · rw [launch_of_absent habs] at hst
          split at hst <;> cases hst
        · rw [launch_of_ne_absent habs] at hst
          exact hst
      · exact hst

end Program

end ProgPara.Network
