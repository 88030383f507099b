import ProgPara.Example.Proofs.Issue
import ProgPara.Example.Proofs.Terminaison

/-!
# Completion

The job completes in every run exactly when there are four children, the number
the father's loops are written for.
-/

namespace ProgPara.Example

open Memory Network

variable {n : ℕ}

/-- Every process is at `MPI_Finalize`, every child has had one temperature and
the father one acknowledgement of each, and nothing is left undelivered. -/
structure Acheve (c : Configuration n) : Prop where
  pere : ∃ s : Pere (Proc n), c.status .pere = .ready s ∧ s.point = .finalize
  fils : ∀ r, ∃ f : Fils (Proc n), c.status (.fils r) = .ready f ∧ f.point = .finalize
  temperatures : ∀ r, (c.recd .pere (.fils r)).length = 1
  acquittements : ∀ r, (c.recd (.fils r) .pere).length = 1
  livre : ∀ p q, c.chan p q = []

def Completion (n : ℕ) (frames : Proc n → Frame) : Prop :=
  ∀ g, (systeme n frames).Reachable Set.univ g →
    g.aborted = none ∧ ((systeme n frames).Terminal Set.univ g → Acheve g.config)

variable {frames : Proc n → Frame} {g : Etat n}

theorem three_le (hg : (systeme n frames).Reachable Set.univ g)
    (ht : (systeme n frames).Terminal Set.univ g) (ha : g.aborted = none) : 3 ≤ n := by
  obtain ⟨v, _, hv⟩ := refines hg
  obtain ⟨_, _, he, _⟩ := pere_finalize hg Set.univ_nonempty ht ha hv
  have hle := v.envois_le
  omega

theorem not_acheve (hg : (systeme n frames).Reachable Set.univ g)
    (ht : (systeme n frames).Terminal Set.univ g) (ha : g.aborted = none) (hn : 3 < n) :
    ¬Acheve g.config := by
  intro hc
  obtain ⟨v, _, hv⟩ := refines hg
  have hlt : 4 < n + 1 := by omega
  obtain ⟨f, hf, hp⟩ := hc.fils ⟨4, hlt⟩
  obtain ⟨f', hf', hp'⟩ :=
    fils_recv hg Set.univ_nonempty ht ha hv (r := ⟨4, hlt⟩) le_rfl
  rw [hf] at hf'
  cases hf'
  rw [hp] at hp'
  cases hp'

theorem acheve_of_terminal {frames : Proc 3 → Frame} {g : Etat 3}
    (hg : (systeme 3 frames).Reachable Set.univ g)
    (ht : (systeme 3 frames).Terminal Set.univ g) (ha : g.aborted = none) :
    Acheve g.config := by
  obtain ⟨v, _, hv⟩ := refines hg
  obtain ⟨hpere, _, he, hr⟩ := pere_finalize hg Set.univ_nonempty ht ha hv
  have henvoye (r : Fin 4) : v.envoye r = true := v.envoye_of_lt (by omega)
  have hrecu (r : Fin 4) : v.recu r = true := v.recu_of_envoye (henvoye r)
  have hsent : g.config.sent = v.sent frames := hv.sent
  have hrecd : g.config.recd = v.recd frames := hv.recd
  refine ⟨hpere, fun r => fils_finalize hg Set.univ_nonempty ht ha hv r.isLt, ?_, ?_, ?_⟩
  · intro r
    simp [hrecd, Vue.recd, hrecu r]
  · intro r
    have hlt : r.val < v.receptions := by omega
    simp [hrecd, Vue.recd, hlt]
  · intro p q
    -- what was sent is what was received
    have hpq : v.sent frames p q = v.recd frames p q := by
      cases p <;> cases q <;> try rfl
      · rename_i r
        have hlt : r.val < v.envois := by omega
        simp only [Vue.sent, Vue.recd, hrecu r, hlt]
      · rename_i r
        have hlt : r.val < v.receptions := by omega
        simp only [Vue.sent, Vue.recd, henvoye r, hlt]
    have hcons : g.config.sent p q = g.config.recd p q ++ g.config.chan p q :=
      hg.conserved p q
    rw [hsent, hrecd, hpq] at hcons
    simpa using hcons

/-- Every run of the job completes exactly when its argument is 3. -/
theorem completion_iff (n : ℕ) (frames : Proc n → Frame) :
    Completion n frames ↔ n = 3 := by
  constructor
  · intro h
    obtain ⟨g, hg, ht⟩ :=
      (decreasing frames).exists_terminal Set.univ (systeme n frames).init
    obtain ⟨ha, hc⟩ := h g hg
    have hle := three_le hg ht ha
    by_contra hn
    exact not_acheve hg ht ha (by omega) (hc ht)
  · rintro rfl g hg
    have ha : g.aborted = none := by
      rw [Option.eq_none_iff_forall_ne_some]
      rintro ⟨p, a⟩ ha
      have hlt := (arret hg ha).1
      omega
    exact ⟨ha, fun ht => acheve_of_terminal hg ht ha⟩

theorem not_completion : ¬Completion 1 zeros ∧ ¬Completion 4 zeros := by
  constructor
  · intro h
    -- the father moves alone, all his sends being buffered
    obtain ⟨g, hrun, ha⟩ : ∃ g, (systeme 1 zeros).run (List.replicate 6 (.pere, true))
        (systeme 1 zeros).init = some g ∧
          g.aborted = some (.pere, .send .temperatureDepart 2) := ⟨_, rfl, rfl⟩
    have hnone := (h g (Program.reachable_of_run hrun)).1
    rw [ha] at hnone
    cases hnone
  · intro h
    obtain ⟨g, hg, ht⟩ :=
      (decreasing zeros).exists_terminal Set.univ (systeme 4 zeros).init
    obtain ⟨ha, hc⟩ := h g hg
    exact not_acheve hg ht ha (by decide) (hc ht)

end ProgPara.Example
