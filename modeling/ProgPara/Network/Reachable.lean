import ProgPara.Network.Basic
import Mathlib.Data.List.Basic

/-!
# What a step does, and what every reachable state keeps

`Offers` lists the steps a process can take; everything later is proved by
cases on it.  The two invariants that hold of every program are here: channels
neither lose nor invent messages, and a blocked process is inside a send.
-/

namespace ProgPara.Network

open Function Relation

variable {P M E : Type*} {S : P → Type*}

namespace Program

variable (prog : Program P M E S)

inductive Offers (buffered : Bool) (p : P) (c : Config P M S) :
    Event P M (S p) → Prop
  | release {q : P} {s : S p} (hst : c.status p = .blocked q s)
      (hchan : c.chan p q = []) : Offers buffered p c { next := .ready s }
  | tau {s s' : S p} (hst : c.status p = .ready s) (hact : prog.act p s = .tau s') :
      Offers buffered p c { next := .ready s' }
  | spawn {s s' : S p} (hst : c.status p = .ready s)
      (hact : prog.act p s = .spawn s') :
      Offers buffered p c { next := .ready s', launches := true }
  | send {s s' : S p} {q : P} {m : M} (hst : c.status p = .ready s)
      (hact : prog.act p s = .send q m s') :
      Offers buffered p c
        { next := if buffered then .ready s' else .blocked q s', transfer := .out q m }
  | recv {s : S p} {q : P} {k : M → S p} {m : M} {rest : List M}
      (hst : c.status p = .ready s) (hact : prog.act p s = .recv q k)
      (hchan : c.chan q p = m :: rest) :
      Offers buffered p c { next := .ready (k m), transfer := .inp q m }

variable {prog} {b : Bool} {p : P} {c : Config P M S} {e : Event P M (S p)}

theorem offers_of_event (h : prog.event b p c = some e) : prog.Offers b p c e := by
  unfold event at h
  split at h
  · cases h
  · rename_i q s hst
    split at h
    · cases h
      exact .release hst (List.isEmpty_iff.mp ‹_›)
    · cases h
  · rename_i s hst
    split at h
    · cases h
    · cases h
    · cases h
      exact .tau hst ‹_›
    · cases h
      exact .spawn hst ‹_›
    · cases h
      exact .send hst ‹_›
    · rename_i q k hact
      obtain ⟨m, hm, rfl⟩ := Option.map_eq_some_iff.mp h
      obtain ⟨rest, hrest⟩ := List.head?_eq_some_iff.mp hm
      exact .recv hst hact hrest

theorem Offers.event (h : prog.Offers b p c e) : prog.event b p c = some e := by
  cases h with
  | release hst hchan => simp [Program.event, hst, hchan]
  | tau hst hact => simp [Program.event, hst, hact]
  | spawn hst hact => simp [Program.event, hst, hact]
  | send hst hact => simp [Program.event, hst, hact]
  | recv hst hact hchan => simp [Program.event, hst, hact, hchan]

theorem Offers.status_ne_absent (h : prog.Offers b p c e) : c.status p ≠ .absent := by
  cases h <;> simp [*]

inductive Gives {T : Type*} (buffered : Bool) (inbox : P → List M) :
    Action P M E T → Event P M T → Prop
  | tau {s : T} : Gives buffered inbox (.tau s) { next := .ready s }
  | spawn {s : T} : Gives buffered inbox (.spawn s) { next := .ready s, launches := true }
  | send {q : P} {m : M} {s : T} : Gives buffered inbox (.send q m s)
      { next := if buffered then .ready s else .blocked q s, transfer := .out q m }
  | recv {q : P} {k : M → T} {m : M} {rest : List M} (hinbox : inbox q = m :: rest) :
      Gives buffered inbox (.recv q k) { next := .ready (k m), transfer := .inp q m }

theorem offers_iff_gives {s : S p} (hst : c.status p = .ready s) :
    prog.Offers b p c e ↔ Gives b (fun q => c.chan q p) (prog.act p s) e := by
  constructor
  · intro h
    cases h with
    | release hst' => simp [hst] at hst'
    | tau hst' hact =>
        rw [hst] at hst'
        cases hst'
        exact hact ▸ .tau
    | spawn hst' hact =>
        rw [hst] at hst'
        cases hst'
        exact hact ▸ .spawn
    | send hst' hact =>
        rw [hst] at hst'
        cases hst'
        exact hact ▸ .send
    | recv hst' hact hchan =>
        rw [hst] at hst'
        cases hst'
        exact hact ▸ .recv hchan
  · intro h
    generalize hact : prog.act p s = a at h
    cases h with
    | tau => exact .tau hst hact
    | spawn => exact .spawn hst hact
    | send => exact .send hst hact
    | recv hinbox => exact .recv hst hact hinbox

theorem aborts_eq_some_iff {a : E} :
    prog.aborts p c = some a ↔
      ∃ s, c.status p = .ready s ∧ prog.act p s = .abort a := by
  unfold aborts
  split
  · rename_i s hst
    split
    · rename_i a' hact
      constructor
      · intro h
        cases h
        exact ⟨s, hst, hact⟩
      · rintro ⟨s', hst', hact'⟩
        rw [hst] at hst'
        cases hst'
        rw [hact] at hact'
        cases hact'
        rfl
    · rename_i hact
      refine ⟨by simp, ?_⟩
      rintro ⟨s', hst', hact'⟩
      rw [hst] at hst'
      cases hst'
      exact absurd hact' (hact a)
  · rename_i hst
    refine ⟨by simp, ?_⟩
    rintro ⟨s, hs, _⟩
    exact absurd hs (hst s)

theorem Offers.aborts_eq_none (h : prog.Offers b p c e) : prog.aborts p c = none := by
  rw [Option.eq_none_iff_forall_ne_some]
  intro a ha
  obtain ⟨s, hst, hact⟩ := aborts_eq_some_iff.mp ha
  cases h <;> simp_all

/-! ## Steps of the network -/

variable [DecidableEq P] {modes : Set Bool} {g g' : State P M E S}

theorem step_cases (h : prog.Step modes g g') :
    g.aborted = none ∧
      ((∃ p a, prog.aborts p g.config = some a ∧ g' = ⟨g.config, some (p, a)⟩) ∨
        ∃ b ∈ modes, ∃ p e, prog.Offers b p g.config e ∧
          g' = ⟨prog.apply p e g.config, none⟩) := by
  obtain ⟨b, hb, p, h⟩ := h
  unfold step at h
  split at h
  · cases h
  · refine ⟨‹_›, ?_⟩
    split at h
    · rename_i a ha
      cases h
      exact .inl ⟨p, a, ha, rfl⟩
    · obtain ⟨e, he, rfl⟩ := Option.map_eq_some_iff.mp h
      exact .inr ⟨b, hb, p, e, offers_of_event he, rfl⟩

theorem Offers.step (hb : b ∈ modes) (h : prog.Offers b p c e) :
    prog.Step modes ⟨c, none⟩ ⟨prog.apply p e c, none⟩ :=
  ⟨b, hb, p, by simp [Program.step, h.aborts_eq_none, h.event]⟩

theorem step_of_aborts (hb : b ∈ modes) {a : E} (h : prog.aborts p c = some a) :
    prog.Step modes ⟨c, none⟩ ⟨c, some (p, a)⟩ :=
  ⟨b, hb, p, by simp [Program.step, h]⟩

theorem Terminal.not_offers (ht : prog.Terminal modes g) (ha : g.aborted = none)
    (hb : b ∈ modes) : ¬prog.Offers b p g.config e := by
  obtain ⟨c, a⟩ := g
  cases ha
  exact fun h => ht _ (h.step hb)

theorem Terminal.aborts_eq_none (ht : prog.Terminal modes g) (ha : g.aborted = none)
    (hb : b ∈ modes) (p : P) : prog.aborts p g.config = none := by
  obtain ⟨c, a⟩ := g
  cases ha
  rw [Option.eq_none_iff_forall_ne_some]
  exact fun a h => ht _ (step_of_aborts hb h)

theorem reachable_of_run {sched : List (P × Bool)} {g₀ : State P M E S}
    (h : run prog sched g₀ = some g) : ReflTransGen (prog.Step Set.univ) g₀ g := by
  induction sched generalizing g₀ with
  | nil =>
      cases h
      exact .refl
  | cons pb sched ih =>
      obtain ⟨g₁, h₁, h₂⟩ := Option.bind_eq_some_iff.mp h
      exact .head ⟨pb.2, trivial, pb.1, h₁⟩ (ih h₂)

/-! ## Invariants -/

/-- A property of configurations that holds at the start and is kept by every
step of every process holds in every reachable state, stopped or not. -/
theorem Reachable.invariant {I : Config P M S → Prop} (hinit : I prog.init.config)
    (hstep : ∀ b ∈ modes, ∀ p e c, I c → prog.Offers b p c e → I (prog.apply p e c))
    (h : prog.Reachable modes g) : I g.config := by
  induction h with
  | refl => exact hinit
  | tail _ hs ih =>
      obtain ⟨_, ⟨p, a, _, rfl⟩ | ⟨b, hb, p, e, he, rfl⟩⟩ := step_cases hs
      · exact ih
      · exact hstep b hb p e _ ih he

theorem Reachable.aborts_of_aborted (h : prog.Reachable modes g) {a : E}
    (ha : g.aborted = some (p, a)) : prog.aborts p g.config = some a := by
  cases h with
  | refl => cases ha
  | tail _ hs =>
      obtain ⟨_, ⟨q, a', hq, rfl⟩ | ⟨_, _, _, _, _, rfl⟩⟩ := step_cases hs
      · cases ha
        exact hq
      · cases ha

/-! ### Conservation -/

/-- Every message sent has been received or is in flight, in order. -/
def Config.Conserved (c : Config P M S) : Prop :=
  ∀ p q, c.sent p q = c.recd p q ++ c.chan p q

theorem Offers.conserved (h : prog.Offers b p c e) (hc : Config.Conserved c) :
    Config.Conserved (prog.apply p e c) := by
  intro x y
  have hxy := hc x y
  cases h with
  | release => exact hxy
  | tau => exact hxy
  | spawn => exact hxy
  | @send s s' q m =>
      by_cases hq : x = p ∧ y = q
      · obtain ⟨rfl, rfl⟩ := hq
        simp [apply, Transfer.chan, Transfer.sent, Transfer.recd, hxy]
      · simpa [apply, Transfer.chan, Transfer.sent, Transfer.recd,
          modifyAt_of_ne hq] using hxy
  | @recv s q k m rest _ _ hchan =>
      by_cases hq : x = q ∧ y = p
      · obtain ⟨rfl, rfl⟩ := hq
        simp [apply, Transfer.chan, Transfer.sent, Transfer.recd, hxy, hchan]
      · simpa [apply, Transfer.chan, Transfer.sent, Transfer.recd,
          modifyAt_of_ne hq] using hxy

/-- Channels are reliable and FIFO in every reachable state of every program. -/
theorem Reachable.conserved (h : prog.Reachable modes g) : Config.Conserved g.config :=
  h.invariant (fun _ _ => rfl) fun _ _ _ _ _ hc he => he.conserved hc

end Program

end ProgPara.Network
