import ProgPara.Example.Proofs.Simulation

/-!
# How the runs end

The father serves the ranks below 4.  With fewer than 4 children he stops the
job at his send to rank `n + 1`; with more, the children he does not serve stay
in their receive.  Nothing else keeps a run from going on.
-/

namespace ProgPara.Example

open Memory Network

variable {n : ℕ} {frames : Proc n → Frame} {c : Configuration n} {v : Vue n}

theorem Represente.aborts (hc : Represente frames c v) {p : Proc n} {a : Call}
    (h : (systeme n frames).aborts p c = some a) :
    n < 3 ∧ p = .pere ∧ a = .send .temperatureDepart (n + 1) := by
  obtain ⟨s, hst, hact⟩ := Program.aborts_eq_some_iff.mp h
  cases p with
  | pere =>
      obtain ⟨_, hs, hsv⟩ := hc.pere
      rw [hs] at hst
      cases hst
      have hetape := hsv.etape frames
      rw [hact] at hetape
      cases hetape with
      | erreur hn => exact ⟨hn, rfl, rfl⟩
  | fils r =>
      cases hl : v.lance with
      | false => simp [hc.absents hl r] at hst
      | true =>
          obtain ⟨_, hf, hfv⟩ := hc.fils hl r
          rw [hf] at hst
          cases hst
          have hetape := hfv.etape frames
          rw [hact] at hetape
          cases hetape

variable {g : Etat n} {modes : Set Bool}

theorem arret (h : (systeme n frames).Reachable modes g) {p : Proc n} {a : Call}
    (ha : g.aborted = some (p, a)) :
    n < 3 ∧ p = .pere ∧ a = .send .temperatureDepart (n + 1) := by
  obtain ⟨v, _, hv⟩ := refines h
  exact hv.aborts (Program.aborts_settled (h.aborts_of_aborted ha))

/-! ## Maximal runs that were not stopped -/

section Terminal

variable (hg : (systeme n frames).Reachable modes g) (hm : modes.Nonempty)
  (ht : (systeme n frames).Terminal modes g) (ha : g.aborted = none)
  (hv : Represente frames g.config.settled v)

include hg hv in
theorem envoye_of_blocked {r : Fin (n + 1)} {q : Proc n} {f : Fils (Proc n)}
    (hst : g.config.status (.fils r) = .blocked q f) : q = .pere ∧ v.envoye r = true := by
  have hsent : v.sent frames (.fils r) q ≠ [] := hv.sent ▸ hg.sent_of_blocked hst
  cases q with
  | pere => simpa [Vue.sent] using hsent
  | fils q => simp [Vue.sent] at hsent

include hg hm ht ha hv in
/-- A child that has not acknowledged waits for a temperature that nobody sent. -/
theorem en_attente {r : Fin (n + 1)} (hl : v.lance = true) (hr : v.envoye r = false) :
    (∃ f : Fils (Proc n), g.config.status (.fils r) = .ready f ∧ f.point = .recv) ∧
      v.recu r = false ∧ v.envois ≤ r := by
  obtain ⟨b, hb⟩ := hm
  obtain ⟨f, hf, hfv⟩ := hv.fils hl r
  have hst : g.config.status (.fils r) = .ready f := by
    obtain hst | ⟨q, hst⟩ := Status.settled_eq_ready.mp hf
    · exact hst
    · rw [(envoye_of_blocked hg hv hst).2] at hr
      cases hr
  have hetape := hfv.etape frames
  generalize hact : (systeme n frames).act (.fils r) f = a at hetape
  cases hetape with
  | prologue => exact absurd (.tau hst hact) (ht.not_offers ha hb)
  | reception hp hrecu =>
      rw [hfv.recu] at hrecu
      refine ⟨⟨f, hst, hp⟩, hrecu, ?_⟩
      by_contra hlt
      have hchan := hv.chan_fils r
      rw [if_pos ⟨Nat.not_le.mp hlt, hrecu⟩] at hchan
      exact ht.not_offers ha hb (.recv hst hact hchan)
  | acquittement => exact absurd (.send hst hact) (ht.not_offers ha hb)
  | fin he =>
      rw [hfv.envoye, hr] at he
      cases he

include hg hm ht ha hv in
theorem pere_finalize :
    (∃ s : Pere (Proc n), g.config.status .pere = .ready s ∧ s.point = .finalize) ∧
      v.lance = true ∧ v.envois = 4 ∧ v.receptions = 4 := by
  have ⟨b, hb⟩ := hm
  obtain ⟨s, hs, hsv⟩ := hv.pere
  have hst : g.config.status .pere = .ready s := by
    obtain hst | ⟨q, hst⟩ := Status.settled_eq_ready.mp hs
    · exact hst
    · have hsent : v.sent frames .pere q ≠ [] := hv.sent ▸ hg.sent_of_blocked hst
      cases q with
      | pere => simp [Vue.sent] at hsent
      | fils r =>
          have hlt : r < v.envois := by simpa [Vue.sent] using hsent
          have hl := v.lance_of_envois (by omega)
          -- the temperature he waits for is still in flight
          have hrecu : v.recu r = false := by
            by_contra hrecu
            refine ht.not_offers ha hb (.release hst ?_)
            exact (hv.chan_fils r).trans (if_neg fun h => hrecu h.2)
          have hr : v.envoye r = false := Vue.envoye_eq_false hrecu
          have hle := (en_attente hg hm ht ha hv hl hr).2.2
          omega
  have hetape := hsv.etape frames
  generalize hact : (systeme n frames).act .pere s = a at hetape
  cases hetape with
  | prologue => exact absurd (.tau hst hact) (ht.not_offers ha hb)
  | lancement => exact absurd (.spawn hst hact) (ht.not_offers ha hb)
  | envoi => exact absurd (.send hst hact) (ht.not_offers ha hb)
  | erreur =>
      have hab : (systeme n frames).aborts .pere g.config = some _ :=
        Program.aborts_eq_some_iff.mpr ⟨s, hst, hact⟩
      rw [ht.aborts_eq_none ha hb] at hab
      cases hab
  | @reception _ r hl he hrec h4 =>
      rw [hsv.lance] at hl
      rw [hsv.envois] at he
      rw [hsv.receptions] at hrec
      have hr : v.envoye r = false := by
        by_contra h
        have hchan := hv.chan_pere r
        rw [if_pos ⟨by simpa using h, hrec.le⟩] at hchan
        exact ht.not_offers ha hb (.recv hst hact hchan)
      have hle := (en_attente hg hm ht ha hv hl hr).2.2
      omega
  | fin hp =>
      refine ⟨⟨s, hst, hp⟩, ?_, ?_, ?_⟩
      · rw [← hsv.lance, Pere.lance, hp]
      · rw [← hsv.envois, Pere.envois, hp]
      · rw [← hsv.receptions, Pere.receptions, hp]

include hg hm ht ha hv in
theorem fils_finalize {r : Fin (n + 1)} (h4 : r.val < 4) :
    ∃ f : Fils (Proc n), g.config.status (.fils r) = .ready f ∧ f.point = .finalize := by
  obtain ⟨_, hl, _, hrec⟩ := pere_finalize hg hm ht ha hv
  obtain ⟨b, hb⟩ := hm
  obtain ⟨f, hf, hfv⟩ := hv.fils hl r
  have hr : v.envoye r = true := v.envoye_of_lt (by omega)
  obtain hst | ⟨q, hst⟩ := Status.settled_eq_ready.mp hf
  · exact ⟨f, hst, Fils.point_of_envoye (hfv.envoye.trans hr)⟩
  · obtain ⟨rfl, _⟩ := envoye_of_blocked hg hv hst
    refine absurd (.release hst ?_) (ht.not_offers ha hb)
    exact (hv.chan_pere r).trans (if_neg fun h => by omega)

include hg hm ht ha hv in
theorem fils_recv {r : Fin (n + 1)} (h4 : 4 ≤ r.val) :
    ∃ f : Fils (Proc n), g.config.status (.fils r) = .ready f ∧ f.point = .recv := by
  obtain ⟨_, hl, he, _⟩ := pere_finalize hg hm ht ha hv
  have hr : v.envoye r = false := Vue.envoye_eq_false (Vue.recu_eq_false (by omega))
  exact (en_attente hg hm ht ha hv hl hr).1

end Terminal

end ProgPara.Example
