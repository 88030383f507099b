import ProgPara.Example.Proofs.Issue
import ProgPara.Example.Proofs.Terminaison
import ProgPara.Network.Outcome

/-!
# Independence of the schedule and of the buffering

Only the father can stop the job, and a run that is not stopped ends with nobody
inside a send; so all maximal runs have one outcome.
-/

namespace ProgPara.Example

open Memory Network

variable {n : ℕ} {frames : Proc n → Frame} {g g' : Etat n}

theorem singleAborter (frames : Proc n → Frame) :
    (systeme n frames).SingleAborter (Representable frames) := by
  rintro c ⟨v, _, hc⟩ p q a a' ha ha'
  rw [(hc.aborts ha).2.1, (hc.aborts ha').2.1]

theorem quiet_of_terminal (hg : (systeme n frames).Reachable Set.univ g)
    (ht : (systeme n frames).Terminal Set.univ g) (ha : g.aborted = none) :
    Program.Config.Quiet g.config := by
  have hm : (Set.univ : Set Bool).Nonempty := Set.univ_nonempty
  obtain ⟨v, _, hv⟩ := refines hg
  intro p q s hst
  cases p with
  | pere =>
      obtain ⟨⟨s', hs', _⟩, _⟩ := pere_finalize hg hm ht ha hv
      rw [hs'] at hst
      cases hst
  | fils r =>
      by_cases h4 : r.val < 4
      · obtain ⟨f, hf, _⟩ := fils_finalize hg hm ht ha hv h4
        rw [hf] at hst
        cases hst
      · obtain ⟨f, hf, _⟩ := fils_recv hg hm ht ha hv (Nat.not_lt.mp h4)
        rw [hf] at hst
        cases hst

theorem fin_unique (hg : (systeme n frames).Reachable Set.univ g)
    (ht : (systeme n frames).Terminal Set.univ g)
    (hg' : (systeme n frames).Reachable Set.univ g')
    (ht' : (systeme n frames).Terminal Set.univ g') :
    (∃ call, g.aborted = some (.pere, call) ∧ g'.aborted = some (.pere, call)) ∨
      (g.aborted = none ∧ g'.aborted = none ∧ g.config = g'.config) := by
  have hm : (Set.univ : Set Bool).Nonempty := Set.univ_nonempty
  have hquiet := quiet_of_terminal hg ht
  have hquiet' := quiet_of_terminal hg' ht'
  have houtcome : g.outcome = g'.outcome :=
    Program.outcome_unique (representable frames) (singleAborter frames) hm hm hg hg' ht ht'
      hquiet hquiet'
  obtain ⟨⟨p, call⟩, ha, ha'⟩ | hend := Program.outcome_eq_cases hquiet hquiet' houtcome
  · obtain ⟨_, rfl, _⟩ := arret hg ha
    exact .inl ⟨call, ha, ha'⟩
  · exact .inr hend

/-- Every run is finite, and any two maximal runs are stopped by the father at
the same call or end in the same configuration. -/
theorem independance (n : ℕ) (frames : Proc n → Frame) :
    (∀ run : ℕ → Etat n, run 0 = (systeme n frames).init →
      ¬∀ k, (systeme n frames).Step Set.univ (run k) (run (k + 1))) ∧
    ∀ g g', (systeme n frames).Reachable Set.univ g → (systeme n frames).Terminal Set.univ g →
      (systeme n frames).Reachable Set.univ g' → (systeme n frames).Terminal Set.univ g' →
      (∃ call, g.aborted = some (.pere, call) ∧ g'.aborted = some (.pere, call)) ∨
        (g.aborted = none ∧ g'.aborted = none ∧ g.config = g'.config) := by
  refine ⟨fun run _ => (decreasing frames).no_infinite_run run, ?_⟩
  intro g g' hg ht hg' ht'
  exact fin_unique hg ht hg' ht'

end ProgPara.Example
