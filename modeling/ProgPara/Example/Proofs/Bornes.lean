import ProgPara.Example.Proofs.Simulation
import ProgPara.Example.Proofs.Terminaison

/-!
# The accesses that leave their object

Every acknowledgement is four bytes read from a `char` and written into a
`char`, and the spawn of more than five children writes past `errcodes`.  No
other access leaves its object.
-/

namespace ProgPara.Example

open Memory Network

variable {n : ℕ}

/-- The calls of a process that left the object they were given. -/
def debordements (c : Configuration n) : Proc n → List Call
  | .pere =>
      match (c.status .pere).settled with
      | .ready (s : Pere (Proc n)) => s.faults
      | _ => []
  | .fils r =>
      match (c.status (.fils r)).settled with
      | .ready (f : Fils (Proc n)) => f.faults
      | _ => []

def SansDebordement (n : ℕ) (frames : Proc n → Frame) : Prop :=
  ∀ g, (systeme n frames).Reachable Set.univ g → ∀ p, debordements g.config p = []

namespace Represente

variable {frames : Proc n → Frame} {c : Configuration n} {v : Vue n}

theorem debordements_pere (hc : Represente frames c.settled v) :
    debordements c .pere = if v.lance then Pere.debords n v.receptions else [] := by
  obtain ⟨s, hs, hsv⟩ := hc.pere
  rw [Config.settled_status] at hs
  rw [← hsv.lance, ← hsv.receptions, ← hsv.coherent.faults]
  simp only [debordements, hs]

theorem debordements_fils (hc : Represente frames c.settled v) (r : Fin (n + 1)) :
    debordements c (.fils r) = if v.envoye r then [.send .returnValue 0] else [] := by
  cases hl : v.lance with
  | false =>
      have hst := hc.absents hl r
      rw [Config.settled_status] at hst
      have he : v.envois = 0 := Vue.envois_eq_zero hl
      have hr : v.envoye r = false := Vue.envoye_eq_false (Vue.recu_eq_false (by omega))
      simp [debordements, hst, hr]
  | true =>
      obtain ⟨f, hf, hfv⟩ := hc.fils hl r
      rw [Config.settled_status] at hf
      rw [← hfv.envoye, ← hfv.coherent.faults]
      simp only [debordements, hf]

/-- No access has left its object exactly as long as nobody acknowledged and the
spawn, if it took place, was of at most five children. -/
theorem debordements_eq_nil (hc : Represente frames c.settled v) :
    (∀ p, debordements c p = []) ↔
      (∀ r, c.sent (.fils r) .pere = []) ∧ (c.status (.fils 0) = .absent ∨ n ≤ 4) := by
  have hsent : c.sent = v.sent frames := hc.sent
  have habsent : c.status (.fils 0) = .absent ↔ v.lance = false := by
    rw [← Status.settled_eq_absent]
    cases hl : v.lance with
    | false => simpa using hc.absents hl 0
    | true =>
        obtain ⟨f, hf, _⟩ := hc.fils hl 0
        rw [Config.settled_status] at hf
        simp [hf]
  have hfils (r : Fin (n + 1)) :
      debordements c (.fils r) = [] ↔ c.sent (.fils r) .pere = [] := by
    rw [hc.debordements_fils r, hsent]
    cases hr : v.envoye r <;> simp [Vue.sent, hr]
  have hreceptions (h : ∀ r, c.sent (.fils r) .pere = []) : v.receptions = 0 := by
    by_contra hne
    have hs := v.envoye_of_lt (r := 0) (Nat.pos_of_ne_zero hne)
    have h0 := h 0
    simp [hsent, Vue.sent, hs] at h0
  rw [habsent]
  constructor
  · intro h
    have hs : ∀ r, c.sent (.fils r) .pere = [] := fun r => (hfils r).mp (h (.fils r))
    have hpere := h .pere
    rw [hc.debordements_pere, hreceptions hs] at hpere
    refine ⟨hs, ?_⟩
    by_contra hne
    push Not at hne
    simp [hne.1, Pere.debords, hne.2] at hpere
  · rintro ⟨hs, hn⟩ p
    cases p with
    | pere =>
        rw [hc.debordements_pere, hreceptions hs]
        obtain hl | hn := hn
        · simp [hl]
        · simp [Pere.debords, Nat.not_lt.mpr hn]
    | fils r => exact (hfils r).mpr (hs r)

theorem avance (hc : Represente frames c v) (hr : v.envoye 0 = false) :
    ∃ p e, (systeme n frames).Offers true p c e := by
  by_cases he : v.envois = 0
  · obtain ⟨s, hs, hsv⟩ := hc.pere
    have hetape := hsv.etape frames
    generalize hact : (systeme n frames).act .pere s = a at hetape
    rw [← hsv.envois] at he
    cases hetape with
    | prologue => exact ⟨.pere, _, .tau hs hact⟩
    | lancement => exact ⟨.pere, _, .spawn hs hact⟩
    | envoi => exact ⟨.pere, _, .send hs hact⟩
    | erreur _ he' => omega
    | reception _ he' => omega
    | fin hp => simp [Pere.envois, hp] at he
  · obtain ⟨f, hf, hfv⟩ := hc.fils (v.lance_of_envois (by omega)) 0
    have hetape := hfv.etape frames
    generalize hact : (systeme n frames).act (.fils 0) f = a at hetape
    cases hetape with
    | prologue => exact ⟨.fils 0, _, .tau hf hact⟩
    | reception _ hrecu =>
        have hchan := hc.chan_fils 0
        have hlt : (0 : Fin (n + 1)).val < v.envois := Nat.pos_of_ne_zero he
        rw [if_pos ⟨hlt, hfv.recu ▸ hrecu⟩] at hchan
        exact ⟨.fils 0, _, .recv hf hact hchan⟩
    | acquittement => exact ⟨.fils 0, _, .send hf hact⟩
    | fin hs =>
        rw [hfv.envoye, hr] at hs
        cases hs

end Represente

theorem exists_acquittement (frames : Proc n → Frame) :
    ∃ g, (systeme n frames).Reachable Set.univ g ∧
      g.config.sent (.fils 0) .pere ≠ [] := by
  have hI := representable frames
  have hstep : ∀ c, Representable frames c → ¬c.sent (.fils 0) .pere ≠ [] →
      ∃ p e, (systeme n frames).Offers true p c e ∧
        Representable frames ((systeme n frames).apply p e c) := by
    intro c hc hnil
    have ⟨v, _, hv⟩ := hc
    have hr : v.envoye 0 = false := by simpa [hv.sent, Vue.sent] using hnil
    obtain ⟨p, e, he⟩ := hv.avance hr
    exact ⟨p, e, he, hI.step hc he⟩
  obtain ⟨c, hr, _, hc⟩ := (decreasing frames).reaches (Set.mem_univ true) hstep hI.init
  exact ⟨_, hr, hc⟩

/-- For no argument do all the runs of the job keep inside their objects: a state
does as long as it has no acknowledgement and no spawn of more than five. -/
theorem not_sansDebordement (n : ℕ) (frames : Proc n → Frame) :
    ¬SansDebordement n frames ∧
      ∀ g, (systeme n frames).Reachable Set.univ g →
        ((∀ p, debordements g.config p = []) ↔
          (∀ r, g.config.sent (.fils r) .pere = []) ∧
            (g.config.status (.fils 0) = .absent ∨ n ≤ 4)) := by
  have hexact : ∀ g, (systeme n frames).Reachable Set.univ g →
      ((∀ p, debordements g.config p = []) ↔
        (∀ r, g.config.sent (.fils r) .pere = []) ∧
          (g.config.status (.fils 0) = .absent ∨ n ≤ 4)) := by
    intro g hg
    obtain ⟨v, _, hv⟩ := refines hg
    exact hv.debordements_eq_nil
  refine ⟨fun h => ?_, hexact⟩
  obtain ⟨g, hg, hsent⟩ := exists_acquittement frames
  exact hsent (((hexact g hg).mp (h g hg)).1 0)

theorem debordement_execution : ¬SansDebordement 3 zeros ∧ ¬SansDebordement 5 zeros := by
  constructor
  · intro h
    obtain ⟨g, hrun, hfils⟩ : ∃ g, (systeme 3 zeros).run
        (List.replicate 4 (.pere, true) ++ List.replicate 5 (.fils 0, true))
        (systeme 3 zeros).init = some g ∧
          debordements g.config (.fils 0) = [.send .returnValue 0] := ⟨_, rfl, rfl⟩
    have hnil := h g (Program.reachable_of_run hrun) (.fils 0)
    rw [hfils] at hnil
    cases hnil
  · intro h
    obtain ⟨g, hrun, hpere⟩ : ∃ g, (systeme 5 zeros).run (List.replicate 3 (.pere, true))
        (systeme 5 zeros).init = some g ∧
          debordements g.config .pere = [.commSpawnMultiple .errcodes] := ⟨_, rfl, rfl⟩
    have hnil := h g (Program.reachable_of_run hrun) .pere
    rw [hpere] at hnil
    cases hnil

end ProgPara.Example
