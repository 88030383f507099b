import ProgPara.Example.Proofs.Simulation

/-!
# Routing, conservation and the order of the acknowledgements

All four facts are read off the progress that a state represents.
-/

namespace ProgPara.Example

open Memory Network

variable {n : ℕ}

structure Routage (c : Configuration n) : Prop where
  /-- Every temperature sent was received or is in flight, and there is one at most. -/
  versFils r : (c.sent .pere (.fils r)).length =
      (c.recd .pere (.fils r)).length + (c.chan .pere (.fils r)).length ∧
    (c.sent .pere (.fils r)).length ≤ 1
  /-- The same of the acknowledgements. -/
  versPere r : (c.sent (.fils r) .pere).length =
      (c.recd (.fils r) .pere).length + (c.chan (.fils r) .pere).length ∧
    (c.sent (.fils r) .pere).length ≤ 1
  /-- A temperature in flight or received is the one meant for its rank. -/
  messages r m : m ∈ c.chan .pere (.fils r) ∨ m ∈ c.recd .pere (.fils r) →
    m = intBytes (temperatureVoulue r)
  /-- A child that received holds the value meant for its rank. -/
  valeur r (f : Fils (Proc n)) : (c.status (.fils r)).settled = .ready f →
    c.recd .pere (.fils r) ≠ [] → f.temperature.toInt = temperatureVoulue r
  /-- A child acknowledges after it received. -/
  acquitte r : c.sent (.fils r) .pere ≠ [] → c.recd .pere (.fils r) ≠ []
  /-- The father has served all the ranks of his send loop before he hears any. -/
  phases r : c.recd (.fils r) .pere ≠ [] →
    ∀ i < 4, ∃ h : i < n + 1, c.sent .pere (.fils ⟨i, h⟩) ≠ []
  /-- The father hears the ranks in order, and each of them after it received. -/
  ordre r : c.recd (.fils r) .pere ≠ [] →
    ∀ q ≤ r, c.recd (.fils q) .pere ≠ [] ∧ c.sent (.fils q) .pere ≠ [] ∧
      c.recd .pere (.fils q) ≠ []

namespace Vue

variable {v : Vue n} {frames : Proc n → Frame} {r : Fin (n + 1)}

@[simp] theorem sent_fils_eq_nil : v.sent frames .pere (.fils r) = [] ↔ v.envois ≤ r := by
  simp [sent]

@[simp] theorem recd_fils_eq_nil :
    v.recd frames .pere (.fils r) = [] ↔ v.recu r = false := by
  simp [recd]

@[simp] theorem sent_pere_eq_nil :
    v.sent frames (.fils r) .pere = [] ↔ v.envoye r = false := by
  simp [sent]

@[simp] theorem recd_pere_eq_nil :
    v.recd frames (.fils r) .pere = [] ↔ v.receptions ≤ r := by
  simp [recd]

theorem length_sent_le (v : Vue n) (p q : Proc n) : (v.sent frames p q).length ≤ 1 := by
  cases p <;> cases q <;> simp only [sent] <;> try split
  all_goals simp

end Vue

theorem toInt_temperatureVoulue {o : Obj 4} {r : Fin (n + 1)}
    (h : o.toList = temperatureDe r) : o.toInt = temperatureVoulue r := by
  rw [Obj.toInt_of_toList h]
  unfold temperatureVoulue
  split <;> decide

theorem routage_of_represente {frames : Proc n → Frame} {c : Configuration n} {v : Vue n}
    (hc : Represente frames c.settled v) : Routage c := by
  have hsent : c.sent = v.sent frames := hc.sent
  have hrecd : c.recd = v.recd frames := hc.recd
  have hcons (p q : Proc n) : (c.sent p q).length =
      (c.recd p q).length + (c.chan p q).length := by
    rw [← List.length_append]
    exact congrArg List.length (hc.conserved p q)
  have hle (p q : Proc n) : (c.sent p q).length ≤ 1 := hsent ▸ v.length_sent_le p q
  constructor
  case versFils => exact fun r => ⟨hcons _ _, hle _ _⟩
  case versPere => exact fun r => ⟨hcons _ _, hle _ _⟩
  case messages =>
    intro r m hm
    have hchan : c.chan .pere (.fils r) = _ := hc.chan_fils r
    rw [hchan, hrecd] at hm
    simp only [Vue.recd] at hm
    obtain hm | hm := hm <;> split at hm
    · exact List.mem_singleton.mp hm
    · cases hm
    · exact List.mem_singleton.mp hm
    · cases hm
  case valeur =>
    intro r f hf hr
    rw [hrecd, ne_eq, Vue.recd_fils_eq_nil, Bool.not_eq_false] at hr
    have hl := v.lance_of_envois (Nat.zero_lt_of_lt (v.lt_envois hr))
    obtain ⟨f', hf', hfv⟩ := hc.fils hl r
    have heq : f' = f := by
      rw [Config.settled_status, hf] at hf'
      cases hf'
      rfl
    subst heq
    exact toInt_temperatureVoulue (hfv.coherent.temperature (hfv.recu.trans hr))
  case acquitte =>
    intro r hr
    simp only [hsent, hrecd, ne_eq, Vue.sent_pere_eq_nil, Vue.recd_fils_eq_nil,
      Bool.not_eq_false] at hr ⊢
    exact v.recu_of_envoye hr
  case phases =>
    intro r hr i hi
    simp only [hrecd, ne_eq, Vue.recd_pere_eq_nil, Nat.not_le] at hr
    have he := v.envois_of_receptions (by omega)
    have hlt := v.envois_le
    refine ⟨by omega, ?_⟩
    simp only [hsent, ne_eq, Vue.sent_fils_eq_nil, Nat.not_le]
    omega
  case ordre =>
    intro r hr q hq
    simp only [hsent, hrecd, ne_eq, Vue.recd_pere_eq_nil, Nat.not_le, Vue.sent_pere_eq_nil,
      Vue.recd_fils_eq_nil, Bool.not_eq_false] at hr ⊢
    have hlt : q.val < v.receptions := lt_of_le_of_lt hq hr
    have hs := v.envoye_of_lt hlt
    exact ⟨hlt, hs, v.recu_of_envoye hs⟩

/-- Every reachable state of the job, stopped or not, routes its messages well. -/
theorem routage {frames : Proc n → Frame} {g : Etat n}
    (h : (systeme n frames).Reachable Set.univ g) : Routage g.config := by
  obtain ⟨v, _, hv⟩ := refines h
  exact routage_of_represente hv

/-- The father sends all his temperatures, ranks 0 and 1 acknowledge, the second
waiting in its send, and the father hears rank 0. -/
def ordonnancement : List (Proc 3 × Bool) :=
  List.replicate 7 (.pere, true) ++ List.replicate 5 (.fils 0, true) ++
    List.replicate 5 (.fils 1, false) ++ [(.pere, true)]

theorem routage_execution : ∃ g : Etat 3,
    (systeme 3 zeros).run ordonnancement (systeme 3 zeros).init = some g ∧
      g.config.recd (.fils 0) .pere = [[1, 0, 0, 0]] ∧
      g.config.chan (.fils 1) .pere = [[1, 0, 0, 0]] ∧ Routage g.config := by
  obtain ⟨g, hrun, hrecd, hchan⟩ : ∃ g : Etat 3,
      (systeme 3 zeros).run ordonnancement (systeme 3 zeros).init = some g ∧
        g.config.recd (.fils 0) .pere = [[1, 0, 0, 0]] ∧
        g.config.chan (.fils 1) .pere = [[1, 0, 0, 0]] := ⟨_, rfl, rfl, rfl⟩
  exact ⟨g, hrun, hrecd, hchan, routage (Program.reachable_of_run hrun)⟩

end ProgPara.Example
