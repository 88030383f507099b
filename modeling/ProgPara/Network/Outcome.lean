import ProgPara.Network.Confluence

/-!
# One outcome for all maximal runs

The outcome of a state is the call that stopped it or else its configuration
with all waits forgotten.  Runs induce buffered runs on outcomes; these are
confluent as soon as a single process can stop the network, so two maximal
runs that end with no process inside a send have the same outcome, whatever
their schedules and whichever sends waited.
-/

namespace ProgPara.Network

open Function Relation

variable {P M E : Type*} {S : P → Type*}

/-- What a state amounts to for a reader of its final values. -/
def State.outcome (g : State P M E S) : Config P M S ⊕ (P × E) :=
  match g.aborted with
  | none => .inl g.config.settled
  | some pa => .inr pa

namespace Program

variable (prog : Program P M E S)

def SingleAborter (I : Config P M S → Prop) : Prop :=
  ∀ c, I c → ∀ p q a a', prog.aborts p c = some a → prog.aborts q c = some a' → p = q

variable [DecidableEq P]

/-- Buffered runs, between outcomes. -/
inductive Eager : Config P M S ⊕ (P × E) → Config P M S ⊕ (P × E) → Prop
  | move {c : Config P M S} {p : P} {e : Event P M (S p)}
      (h : prog.Offers true p c e) : Eager (.inl c) (.inl (prog.apply p e c))
  | abort {c : Config P M S} {p : P} {a : E} (h : prog.aborts p c = some a) :
      Eager (.inl c) (.inr (p, a))

variable {prog} {modes modes' : Set Bool} {g g' : State P M E S}
  {I : Config P M S → Prop}

theorem outcome_step (h : prog.Step modes g g') :
    ReflGen prog.Eager g.outcome g'.outcome := by
  obtain ⟨ha, ⟨p, a, hp, rfl⟩ | ⟨b, _, p, e, he, rfl⟩⟩ := step_cases h
  · simp only [State.outcome, ha]
    exact .single (.abort (aborts_settled hp))
  · simp only [State.outcome, ha]
    rcases he.settled with heq | ⟨he', heq⟩
    · rw [heq]
    · rw [heq]
      exact .single (.move he')

theorem outcome_steps (h : ReflTransGen (prog.Step modes) g g') :
    ReflTransGen prog.Eager g.outcome g'.outcome := by
  induction h with
  | refl => exact .refl
  | tail _ hs ih => exact ih.trans (outcome_step hs).to_reflTransGen

/-! ## The diamond -/

theorem Offers.abort_persist {p p' : P} {c : Config P M S} {a : E} (hp : p ≠ p')
    (h : prog.aborts p c = some a) (e' : Event P M (S p')) :
    prog.aborts p (prog.apply p' e' c) = some a := by
  obtain ⟨s, hst, hact⟩ := aborts_eq_some_iff.mp h
  refine aborts_eq_some_iff.mpr ⟨s, ?_, hact⟩
  rw [apply_status_of_ne_absent hp (by simp [hst]), hst]

omit [DecidableEq P] in
theorem Offers.unique {b : Bool} {p : P} {c : Config P M S} {e e' : Event P M (S p)}
    (h : prog.Offers b p c e) (h' : prog.Offers b p c e') : e = e' :=
  Option.some.inj (h.event.symm.trans h'.event)

def Holds (I : Config P M S → Prop) (o : Config P M S ⊕ (P × E)) : Prop :=
  ∀ c, o = .inl c → I c

theorem EagerInvariant.eager (hI : prog.EagerInvariant I)
    {o o' : Config P M S ⊕ (P × E)} (ho : Holds I o) (h : prog.Eager o o') :
    Holds I o' := by
  intro c hc
  cases h with
  | move he =>
      cases hc
      exact hI.step (ho _ rfl) he
  | abort => cases hc

theorem eager_diamond (hsingle : prog.SingleAborter I)
    {o o₁ o₂ : Config P M S ⊕ (P × E)} (ho : Holds I o) (h₁ : prog.Eager o o₁)
    (h₂ : prog.Eager o o₂) :
    ∃ d, ReflGen prog.Eager o₁ d ∧ ReflGen prog.Eager o₂ d := by
  cases h₁ with
  | @move c p e he =>
      cases h₂ with
      | @move _ p' e' he' =>
          by_cases hp : p = p'
          · subst hp
            obtain rfl := he.unique he'
            exact ⟨_, .refl, .refl⟩
          · refine ⟨_, .single (.move (he'.persist (Ne.symm hp) e)), ?_⟩
            rw [he'.apply_comm (Ne.symm hp) he]
            exact .single (.move (he.persist hp e'))
      | @abort _ p' a ha =>
          have hp : p' ≠ p := by
            rintro rfl
            rw [he.aborts_eq_none] at ha
            cases ha
          exact ⟨_, .single (.abort (Offers.abort_persist hp ha e)), .refl⟩
  | @abort c p a ha =>
      cases h₂ with
      | @move _ p' e' he' =>
          have hp : p ≠ p' := by
            rintro rfl
            rw [he'.aborts_eq_none] at ha
            cases ha
          exact ⟨_, .refl, .single (.abort (Offers.abort_persist hp ha e'))⟩
      | @abort _ p' a' ha' =>
          obtain rfl := hsingle c (ho c rfl) p p' a a' ha ha'
          rw [ha] at ha'
          cases ha'
          exact ⟨_, .refl, .refl⟩

/-- The buffered runs from an outcome where the invariant holds meet again. -/
theorem eager_confluent (hI : prog.EagerInvariant I) (hsingle : prog.SingleAborter I)
    {o o₁ o₂ : Config P M S ⊕ (P × E)} (ho : Holds I o)
    (h₁ : ReflTransGen prog.Eager o o₁) (h₂ : ReflTransGen prog.Eager o o₂) :
    Join (ReflTransGen prog.Eager) o₁ o₂ := by
  -- `church_rosser` asks for the diamond everywhere, so it is applied to the
  -- outcomes that satisfy the invariant
  let r (x y : {o // Holds I o}) : Prop := prog.Eager (E := E) x.1 y.1
  have hlift {x y} (h : ReflTransGen prog.Eager x y) (hx : Holds I x) :
      ∃ hy : Holds I y, ReflTransGen r ⟨x, hx⟩ ⟨y, hy⟩ := by
    induction h with
    | refl => exact ⟨hx, .refl⟩
    | tail _ hs ih =>
        obtain ⟨hy, hr⟩ := ih
        exact ⟨hI.eager hy hs, hr.tail hs⟩
  obtain ⟨_, hr₁⟩ := hlift h₁ ho
  obtain ⟨_, hr₂⟩ := hlift h₂ ho
  have hdiamond (x y z) (hy : r x y) (hz : r x z) :
      ∃ d, ReflGen r y d ∧ ReflTransGen r z d := by
    obtain ⟨d, hyd, hzd⟩ := eager_diamond hsingle x.2 hy hz
    obtain ⟨hd, hzd'⟩ := hlift hzd.to_reflTransGen z.2
    refine ⟨⟨d, hd⟩, ?_, hzd'⟩
    cases hyd with
    | refl => exact .refl
    | single h => exact .single h
  obtain ⟨d, hd₁, hd₂⟩ := church_rosser hdiamond hr₁ hr₂
  exact ⟨d.1, hd₁.lift Subtype.val fun _ _ h => h, hd₂.lift Subtype.val fun _ _ h => h⟩

/-! ## Maximal runs -/

def Config.Quiet (c : Config P M S) : Prop :=
  ∀ p q s, c.status p ≠ .blocked q s

omit [DecidableEq P] in
theorem Offers.of_mode {b : Bool} {p : P} {c : Config P M S} {e : Event P M (S p)}
    (h : prog.Offers b p c e) (b' : Bool) : ∃ e', prog.Offers b' p c e' := by
  cases h with
  | release hst hchan => exact ⟨_, .release hst hchan⟩
  | tau hst hact => exact ⟨_, .tau hst hact⟩
  | spawn hst hact => exact ⟨_, .spawn hst hact⟩
  | send hst hact => exact ⟨_, .send hst hact⟩
  | recv hst hact hchan => exact ⟨_, .recv hst hact hchan⟩

theorem Terminal.outcome_final (hm : modes.Nonempty) (ht : prog.Terminal modes g)
    (hquiet : g.aborted = none → Config.Quiet g.config)
    (o : Config P M S ⊕ (P × E)) : ¬prog.Eager g.outcome o := by
  obtain ⟨b, hb⟩ := hm
  intro h
  cases ha : g.aborted with
  | some pa =>
      simp only [State.outcome, ha] at h
      cases h
  | none =>
      simp only [State.outcome, ha, Config.settled_eq_self (hquiet ha)] at h
      cases h with
      | move he =>
          obtain ⟨e', he'⟩ := he.of_mode b
          exact ht.not_offers ha hb he'
      | @abort _ p a hp =>
          rw [ht.aborts_eq_none ha hb p] at hp
          cases hp

omit [DecidableEq P] in
theorem eq_of_final {r : P → P → Prop} {x y : P} (hx : ∀ z, ¬r x z)
    (h : ReflTransGen r x y) : y = x := by
  rcases h.cases_head with heq | ⟨z, hz, _⟩
  · exact heq.symm
  · exact absurd hz (hx z)

/-- Two maximal runs have the same outcome, whatever their schedules and even
when the choices of their sends range over different sets. -/
theorem outcome_unique (hI : prog.EagerInvariant I) (hsingle : prog.SingleAborter I)
    (hm : modes.Nonempty)
    (hm' : modes'.Nonempty) (h : prog.Reachable modes g) (h' : prog.Reachable modes' g')
    (ht : prog.Terminal modes g) (ht' : prog.Terminal modes' g')
    (hquiet : g.aborted = none → Config.Quiet g.config)
    (hquiet' : g'.aborted = none → Config.Quiet g'.config) :
    g.outcome = g'.outcome := by
  have hinit : Holds I (State.outcome prog.init) := by
    intro c hc
    simp only [State.outcome, init, Sum.inl.injEq] at hc
    rw [← hc]
    have hsettled : prog.init.config.settled = prog.init.config := init_settled
    exact hsettled ▸ hI.init
  obtain ⟨d, hd, hd'⟩ :=
    eager_confluent hI hsingle hinit (outcome_steps h) (outcome_steps h')
  rw [← eq_of_final (ht.outcome_final hm hquiet) hd,
    ← eq_of_final (ht'.outcome_final hm' hquiet') hd']

omit [DecidableEq P] in
theorem outcome_eq_cases (hquiet : g.aborted = none → Config.Quiet g.config)
    (hquiet' : g'.aborted = none → Config.Quiet g'.config) (h : g.outcome = g'.outcome) :
    (∃ pa, g.aborted = some pa ∧ g'.aborted = some pa) ∨
      (g.aborted = none ∧ g'.aborted = none ∧ g.config = g'.config) := by
  cases ha : g.aborted with
  | some pa =>
      cases ha' : g'.aborted with
      | some pa' =>
          simp only [State.outcome, ha, ha', Sum.inr.injEq] at h
          exact .inl ⟨pa, rfl, by rw [h]⟩
      | none => simp [State.outcome, ha, ha'] at h
  | none =>
      cases ha' : g'.aborted with
      | some pa' => simp [State.outcome, ha, ha'] at h
      | none =>
          simp only [State.outcome, ha, ha', Sum.inl.injEq] at h
          rw [Config.settled_eq_self (hquiet ha),
            Config.settled_eq_self (hquiet' ha')] at h
          exact .inr ⟨rfl, rfl, h⟩

end Program

end ProgPara.Network
