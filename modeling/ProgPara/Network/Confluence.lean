import ProgPara.Network.Buffering

/-!
# Independence of the schedule

Steps of two processes commute: a send appends to a channel whose head the
receiver takes, and no two processes take from or append to the same channel.
When at most one process can stop the network this gives confluence of the
buffered runs, stopped runs being compared by the call that stopped them, and
with the refinement of waiting sends a single outcome for all maximal runs.
-/

namespace ProgPara.Network

open Function Relation

variable {P M E : Type*} {S : P → Type*} [DecidableEq P]

/-! ## Commuting effects -/

theorem modifyAt_comm {p q p' q' : P} {f f' : List M → List M}
    {ch : P → P → List M} (h : p = p' ∧ q = q' → f (f' (ch p q)) = f' (f (ch p q))) :
    modifyAt p q f (modifyAt p' q' f' ch) = modifyAt p' q' f' (modifyAt p q f ch) := by
  funext a b
  simp only [modifyAt]
  by_cases h₁ : a = p ∧ b = q
  · by_cases h₂ : a = p' ∧ b = q'
    · simp only [if_pos h₁, if_pos h₂]
      obtain ⟨rfl, rfl⟩ := h₁
      exact h h₂
    · simp only [if_pos h₁, if_neg h₂]
  · simp only [if_neg h₁]

namespace Transfer

variable {p p' : P} {t t' : Transfer P M}

def Takes (p : P) (ch : P → P → List M) : Transfer P M → Prop
  | .inp q m => ∃ rest, ch q p = m :: rest
  | _ => True

theorem chan_comm {ch : P → P → List M} (hp : p ≠ p') (ht : t.Takes p ch)
    (ht' : t'.Takes p' ch) :
    t.chan p (t'.chan p' ch) = t'.chan p' (t.chan p ch) := by
  cases t with
  | quiet => rfl
  | out q m =>
      cases t' with
      | quiet => rfl
      | out q' m' =>
          simp only [chan]
          exact modifyAt_comm fun h => absurd h.1 hp
      | inp q' m' =>
          obtain ⟨rest, hrest⟩ := ht'
          simp only [chan]
          refine modifyAt_comm ?_
          rintro ⟨rfl, rfl⟩
          simp [hrest]
  | inp q m =>
      obtain ⟨rest, hrest⟩ := ht
      cases t' with
      | quiet => rfl
      | out q' m' =>
          simp only [chan]
          refine modifyAt_comm ?_
          rintro ⟨rfl, rfl⟩
          simp [hrest]
      | inp q' m' =>
          simp only [chan]
          exact modifyAt_comm fun h => absurd h.2 hp

theorem sent_comm (h : P → P → List M) (hp : p ≠ p') :
    t.sent p (t'.sent p' h) = t'.sent p' (t.sent p h) := by
  cases t with
  | out q m =>
      cases t' with
      | out q' m' =>
          simp only [sent]
          exact modifyAt_comm fun h => absurd h.1 hp
      | _ => rfl
  | _ => rfl

theorem recd_comm (h : P → P → List M) (hp : p ≠ p') :
    t.recd p (t'.recd p' h) = t'.recd p' (t.recd p h) := by
  cases t with
  | inp q m =>
      cases t' with
      | inp q' m' =>
          simp only [recd]
          exact modifyAt_comm fun h => absurd h.2 hp
      | _ => rfl
  | _ => rfl

theorem chan_head {ch : P → P → List M} {q : P} {m : M} {rest : List M} (hp : p ≠ p')
    (t' : Transfer P M) (h : ch q p = m :: rest) :
    ∃ rest', t'.chan p' ch q p = m :: rest' := by
  cases t' with
  | quiet => exact ⟨rest, h⟩
  | out q' m' =>
      by_cases hq : q = p' ∧ p = q'
      · obtain ⟨rfl, rfl⟩ := hq
        exact ⟨rest ++ [m'], by simp [chan, h]⟩
      · exact ⟨rest, by simpa [chan, modifyAt_of_ne hq] using h⟩
  | inp q' m' =>
      have hq : ¬(q = q' ∧ p = p') := fun hq => hp hq.2
      exact ⟨rest, by simpa [chan, modifyAt_of_ne hq] using h⟩

theorem chan_eq_nil {ch : P → P → List M} {q : P} (hp : p ≠ p')
    (h : ch p q = []) : t'.chan p' ch p q = [] := by
  cases t' with
  | quiet => exact h
  | out q' m' =>
      have hq : ¬(p = p' ∧ q = q') := fun hq => hp hq.1
      simpa [chan, modifyAt_of_ne hq] using h
  | inp q' m' =>
      by_cases hq : p = q' ∧ q = p'
      · obtain ⟨rfl, rfl⟩ := hq
        simp [chan, h]
      · simpa [chan, modifyAt_of_ne hq] using h

end Transfer

namespace Program

variable {prog : Program P M E S} {b b' : Bool} {p p' : P} {c : Config P M S}
  {e : Event P M (S p)} {e' : Event P M (S p')}

omit [DecidableEq P] in
theorem Offers.takes (h : prog.Offers b p c e) : e.transfer.Takes p c.chan := by
  cases h with
  | recv _ _ hchan => exact ⟨_, hchan⟩
  | _ => trivial

omit [DecidableEq P] in
theorem Offers.next_ne_absent (h : prog.Offers b p c e) : e.next ≠ .absent := by
  cases h with
  | send => cases b <;> simp
  | _ => simp

theorem apply_status_of_ne_absent {q : P} (hq : q ≠ p) (hst : c.status q ≠ .absent) :
    (prog.apply p e c).status q = c.status q := by
  rw [apply_status_of_ne hq, launch_of_ne_absent hst, ite_self]

/-- A step stays possible, and stays the same, when another process moves. -/
theorem Offers.persist (hp : p ≠ p') (h : prog.Offers b p c e) (e' : Event P M (S p')) :
    prog.Offers b p (prog.apply p' e' c) e := by
  have hst : (prog.apply p' e' c).status p = c.status p :=
    apply_status_of_ne_absent hp h.status_ne_absent
  cases h with
  | release hs hchan =>
      exact .release (hst.trans hs) (Transfer.chan_eq_nil hp hchan)
  | tau hs hact => exact .tau (hst.trans hs) hact
  | spawn hs hact => exact .spawn (hst.trans hs) hact
  | send hs hact => exact .send (hst.trans hs) hact
  | recv hs hact hchan =>
      obtain ⟨rest', hrest'⟩ := Transfer.chan_head hp e'.transfer hchan
      exact .recv (hst.trans hs) hact hrest'

/-- Launches by two processes are independent, a process having one parent. -/
theorem launch_comm (hp : p ≠ p') {q : P} {st st₁ st₂ : (q : P) → Status P (S q)}
    (h₁ : st₁ q = prog.launch p' st q) (h₂ : st₂ q = prog.launch p st q) :
    prog.launch p st₁ q = prog.launch p' st₂ q := by
  by_cases hq : st q = .absent
  · rw [launch_of_absent hq] at h₁ h₂
    by_cases hpar : prog.parent q = some p
    · have hpar' : prog.parent q ≠ some p' := by simp [hpar, hp]
      simp_all [launch]
    · by_cases hpar' : prog.parent q = some p' <;> simp_all [launch]
  · rw [launch_of_ne_absent hq] at h₁ h₂
    rw [launch_of_ne_absent (h₁ ▸ hq), launch_of_ne_absent (h₂ ▸ hq), h₁, h₂]

theorem Offers.status_comm (hp : p ≠ p') (h : prog.Offers b p c e)
    (h' : prog.Offers b' p' c e') (q : P) :
    (prog.apply p e (prog.apply p' e' c)).status q =
      (prog.apply p' e' (prog.apply p e c)).status q := by
  rcases eq_or_ne q p with rfl | hq
  · rw [apply_status_self, apply_status_of_ne_absent hp, apply_status_self]
    rw [apply_status_self]
    exact h.next_ne_absent
  · rcases eq_or_ne q p' with rfl | hq'
    · rw [apply_status_self, apply_status_of_ne_absent hq, apply_status_self]
      rw [apply_status_self]
      exact h'.next_ne_absent
    · rw [apply_status_of_ne hq e, apply_status_of_ne hq' e' (prog.apply p e c)]
      have h₁ : (prog.apply p' e' c).status q = _ := apply_status_of_ne hq' e' c
      have h₂ : (prog.apply p e c).status q = _ := apply_status_of_ne hq e c
      cases hl : e.launches <;> cases hl' : e'.launches <;>
        simp only [hl, hl', if_true, if_false, Bool.false_eq_true] at h₁ h₂ ⊢
      · rw [h₁, h₂]
      · rw [h₁, launch, launch, h₂]
      · rw [h₂, launch, launch, h₁]
      · exact launch_comm hp h₁ h₂

theorem Offers.apply_comm (hp : p ≠ p') (h : prog.Offers b p c e)
    (h' : prog.Offers b' p' c e') :
    prog.apply p e (prog.apply p' e' c) = prog.apply p' e' (prog.apply p e c) :=
  Config.ext (funext (h.status_comm hp h'))
    (Transfer.chan_comm hp h.takes h'.takes) (Transfer.sent_comm _ hp)
    (Transfer.recd_comm _ hp)

end Program

end ProgPara.Network
