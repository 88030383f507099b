import ProgPara.Example.Proofs.Independance
import ProgPara.Example.Proofs.Routage
import ProgPara.Ob1.Proofs.Work

/-!
# The job over the matching engine

The processes make their calls on the intercommunicator of the spawn, and the
messages go through the matching engine.  Every channel of the job carries one
message at most, so its runs stay within the sequence numbers whatever the order
in which fragments arrive and threads handle them.
-/

namespace ProgPara.Example

open Memory Network

variable {n : ℕ} {frames : Proc n → Frame} {contextId : UInt16} {noAnySource : Bool}

/-- The intercommunicator of the spawn: the father is alone in his group, and the
remote group of a child is his. -/
def voisins (n : ℕ) : Ob1.Group (Proc n) where
  rank
    | .pere => 0
    | .fils r => r
  size
    | .pere => (enfants n).size
    | .fils _ => (versPere n).size
  reaches
    | .pere, .fils _ => true
    | .fils _, .pere => true
    | _, _ => false
  reaches_symm {p q} h := by
    cases p <;> cases q <;> exact h
  rank_lt {p q} h := by
    cases p <;> cases q
    · cases h
    · exact Nat.one_pos
    · rename_i r
      exact r.isLt
    · cases h
  rank_inj {p p' q} h h' heq := by
    cases p <;> cases p' <;> cases q
    · rfl
    · rfl
    · cases h
    · cases h'
    · cases h'
    · cases h
    · rename_i r r'
      exact congrArg Proc.fils (Fin.ext heq)
    · cases h
  size_pos
    | .pere => Nat.succ_pos n
    | .fils _ => Nat.one_pos

theorem enfants_rank (r : Fin (n + 1)) :
    (enfants n).peer ((voisins n).rank (.fils r)) = some (.fils r) :=
  enfants_peer r.isLt

theorem versPere_rank : (versPere n).peer ((voisins n).rank .pere) = some .pere :=
  versPere_peer

theorem Represente.pere_conforme {c : Configuration n} {v : Vue n}
    (hv : Represente frames c.settled v) {s : Pere (Proc n)}
    (hst : c.status .pere = .ready s) : s.Conforme v := by
  obtain ⟨s', hs', hsv⟩ := hv.pere
  rw [Config.settled_status, hst] at hs'
  cases hs'
  exact hsv

theorem Represente.fils_conforme {c : Configuration n} {v : Vue n}
    (hv : Represente frames c.settled v) {r : Fin (n + 1)} {f : Fils (Proc n)}
    (hst : c.status (.fils r) = .ready f) : f.Conforme r v := by
  have hl : v.lance = true := by
    by_contra hl
    have habsent := hv.absents (by simpa using hl) r
    rw [Config.settled_status, hst] at habsent
    cases habsent
  obtain ⟨f', hf, hfv⟩ := hv.fils hl r
  rw [Config.settled_status, hst] at hf
  cases hf
  exact hfv

theorem linked (frames : Proc n → Frame) : Ob1.Linked (systeme n frames) (voisins n) := by
  intro g hg p s hst
  obtain ⟨v, -, hv⟩ := refines hg
  cases p with
  | pere =>
      have hetape := (hv.pere_conforme hst).etape frames
      constructor
      · intro q m s' hact
        rw [hact] at hetape
        cases hetape
        rfl
      · intro q k hact
        rw [hact] at hetape
        cases hetape
        rfl
  | fils r =>
      have hetape := (hv.fils_conforme hst).etape frames
      constructor
      · intro q m s' hact
        rw [hact] at hetape
        cases hetape
        rfl
      · intro q k hact
        rw [hact] at hetape
        cases hetape
        rfl

abbrev Marche (n : ℕ) := Ob1.Exec (Proc n) Mpi.Message Call (Local n)

namespace Marche

def init (frames : Proc n → Frame) (contextId : UInt16) (noAnySource : Bool) : Marche n :=
  Ob1.Exec.init (systeme n frames) (voisins n) contextId noAnySource

def Etape (frames : Proc n → Frame) (e e' : Marche n) : Prop :=
  Ob1.Exec.Step (systeme n frames) (voisins n) (fun _ _ => True) e e'

/-- What any order of the moves can lead to. -/
def Atteint (frames : Proc n → Frame) (contextId : UInt16) (noAnySource : Bool)
    (e : Marche n) : Prop :=
  Relation.ReflTransGen (Etape frames) (init frames contextId noAnySource) e

end Marche

variable {e e' : Marche n} {g : Etat n} {h : Ob1.Job.Histories (Proc n) Mpi.Message}

section Bornes

variable (hg : (systeme n frames).Reachable Set.univ g)
  (hr : Ob1.Refines (systeme n frames) (voisins n) e g)
include hg hr

theorem length_sent_le (p q : Proc n) : (e.job.sent p q).length ≤ 1 := by
  obtain ⟨v, -, hv⟩ := refines hg
  have hsent : g.config.sent p q = v.sent frames p q := congrFun (congrFun hv.sent p) q
  have hlen : (v.sent frames p q).length ≤ 1 := v.length_sent_le p q
  rw [← hsent, hr.sent, Ob1.data, List.length_map] at hlen
  exact hlen

variable (hd : Ob1.Driven (voisins n) e h)
include hd

theorem hdrSrc_lt {p : Proc n} {m : Ob1.Match (Nat × Mpi.Message)}
    (hm : m ∈ e.job.log p) : m.frag.hdrSrc < 4 := by
  obtain ⟨src, hlink, hsrc, htaken⟩ := hd.mem_taken hm
  rw [← hsrc]
  cases src with
  | pere => exact Nat.succ_pos 3
  | fils r =>
      cases p with
      | fils q => cases hlink
      | pere =>
          obtain ⟨v, -, hv⟩ := refines hg
          have hrecd : g.config.recd = v.recd frames := hv.recd
          have hne : g.config.recd (.fils r) .pere ≠ [] := by
            rw [hr.recd_eq hd hlink]
            exact List.ne_nil_of_mem (List.mem_map_of_mem htaken)
          rw [hrecd, ne_eq, Vue.recd_pere_eq_nil, Nat.not_le] at hne
          have hle := v.receptions_le
          exact lt_of_lt_of_le hne hle

theorem paced (hc : Ob1.Counted e.job) {mv : Ob1.Move (Proc n)}
    {a : Ob1.Action (Proc n) Mpi.Message}
    (ha : e.action (systeme n frames) (voisins n) mv = some a) :
    Ob1.Job.Paced (voisins n) e.job a := by
  have hsent := length_sent_le hg hr
  refine Ob1.Exec.paced_of_short hd.orderly hc (fun src dst => ?_) (fun p s hphase => ?_) ha
  · exact (hsent src dst).trans (by omega)
  · have hasked := hd.asked_length_le hphase
    have hlog := hd.log_length_le (fun src _ => hsent src p)
      fun m hm => hdrSrc_lt hg hr hd hm
    omega

end Bornes

/-- A state of the job over the engine and the state of the network it stands for. -/
structure Suit (frames : Proc n → Frame) (e : Marche n) (g : Etat n) : Prop where
  counted : Ob1.Counted e.job
  driven : ∃ h, Ob1.Driven (voisins n) e h
  reachable : (systeme n frames).Reachable Set.univ g
  refines : Ob1.Refines (systeme n frames) (voisins n) e g

theorem Suit.init (frames : Proc n → Frame) (contextId : UInt16) (noAnySource : Bool) :
    Suit frames (Marche.init frames contextId noAnySource) (systeme n frames).init where
  counted := .init (voisins n) contextId false noAnySource
  driven := ⟨_, .init (systeme n frames) (voisins n) contextId noAnySource⟩
  reachable := .refl
  refines := .init (systeme n frames) (voisins n) contextId noAnySource

theorem stutters (frames : Proc n → Frame) :
    Stutters (Suit frames) (Marche.Etape frames) ((systeme n frames).Step Set.univ)
      fun e => e.work (voisins n) := by
  rintro e g e' hs ⟨mv, -, hstep⟩
  obtain ⟨h, hd⟩ := hs.driven
  have hpaced : ∀ a, e.action (systeme n frames) (voisins n) mv = some a →
      Ob1.Job.Paced (voisins n) e.job a :=
    fun a ha => paced hs.reachable hs.refines hd hs.counted ha
  obtain ⟨g', ⟨h', hd', hreach, hr⟩, hg⟩ :=
    Ob1.Exec.stutters (linked frames) e g e' ⟨h, hd, hs.reachable, hs.refines⟩
      ⟨mv, hpaced, hstep⟩
  exact ⟨g', ⟨hs.counted.move hstep, ⟨h', hd'⟩, hreach, hr⟩, hg⟩

theorem Marche.Atteint.suit (he : Marche.Atteint frames contextId noAnySource e) :
    ∃ g, Suit frames e g := by
  have hinit := Suit.init frames contextId noAnySource
  obtain ⟨g, hs, -⟩ := (stutters frames).reaches hinit he
  exact ⟨g, hs⟩

/-! ## Where the messages go -/

structure Acheminement (job : Ob1.Job (Proc n) Mpi.Message) : Prop where
  unique p q : (job.sent p q).length ≤ 1
  /-- What a child took is the temperature meant for its rank. -/
  messages r : ∀ m ∈ job.log (.fils r), m.frag.segments.2 = intBytes (temperatureVoulue r)
  /-- A child acknowledges after it took its temperature. -/
  acquitte r : job.sent (.fils r) .pere ≠ [] → job.log (.fils r) ≠ []
  /-- The father has served the ranks of his send loop before he hears any. -/
  phases r : job.taken (voisins n) (.fils r) .pere ≠ [] →
    ∀ i < 4, ∃ h : i < n + 1, job.sent .pere (.fils ⟨i, h⟩) ≠ []
  /-- The father hears the ranks in order. -/
  ordre r : job.taken (voisins n) (.fils r) .pere ≠ [] →
    ∀ q ≤ r, job.taken (voisins n) (.fils q) .pere ≠ [] ∧ job.log (.fils q) ≠ []

theorem Suit.acheminement (hs : Suit frames e g) : Acheminement e.job := by
  obtain ⟨v, -, hv⟩ := Example.refines hs.reachable
  have hroutage := routage_of_represente hv
  obtain ⟨h, hd⟩ := hs.driven
  have hsent : ∀ p q, g.config.sent p q = [] ↔ e.job.sent p q = [] := by
    intro p q
    rw [hs.refines.sent, Ob1.data, List.map_eq_nil_iff]
  have hrecd : ∀ p q, (voisins n).reaches p q →
      (g.config.recd p q = [] ↔ e.job.taken (voisins n) p q = []) := by
    intro p q hlink
    rw [hs.refines.recd_eq hd hlink, Ob1.data, List.map_eq_nil_iff]
  have hlog : ∀ r, g.config.recd .pere (.fils r) ≠ [] → e.job.log (.fils r) ≠ [] := by
    intro r hr hnil
    refine hr ((hrecd .pere (.fils r) rfl).mpr ?_)
    rw [Ob1.Job.taken, hnil]
    rfl
  constructor
  case unique => exact length_sent_le hs.reachable hs.refines
  case messages =>
    intro r m hm
    obtain ⟨src, hlink, -, htaken⟩ := hd.mem_taken hm
    cases src with
    | fils q => cases hlink
    | pere =>
        refine hroutage.messages r _ (.inr ?_)
        rw [hs.refines.recd_eq hd hlink]
        exact List.mem_map_of_mem htaken
  case acquitte =>
    intro r hr
    apply hlog
    apply hroutage.acquitte
    rwa [ne_eq, hsent]
  case phases =>
    intro r hr i hi
    rw [ne_eq, ← hrecd (.fils r) .pere rfl] at hr
    obtain ⟨hlt, hi⟩ := hroutage.phases r hr i hi
    refine ⟨hlt, ?_⟩
    rwa [ne_eq, ← hsent]
  case ordre =>
    intro r hr q hq
    rw [ne_eq, ← hrecd (.fils r) .pere rfl] at hr
    obtain ⟨hheard, -, hrecu⟩ := hroutage.ordre r hr q hq
    rw [ne_eq, hrecd (.fils q) .pere rfl] at hheard
    exact ⟨hheard, hlog q hrecu⟩

/-- Whatever the order in which the fragments of the job arrive and the threads
handle them, every message gets where it is meant to, and in its turn. -/
theorem acheminement_marche (he : Marche.Atteint frames contextId noAnySource e) :
    Acheminement e.job := by
  obtain ⟨g, hs⟩ := he.suit
  exact hs.acheminement

/-- The temperature of rank 1 arrives first, and its acknowledgement before that of
rank 0, which the father is to hear first. -/
def livraison : List (Ob1.Move (Proc 3)) :=
  let f₀ := .fils ⟨0, Nat.succ_pos 3⟩
  let f₁ := .fils ⟨1, by decide⟩
  List.replicate 7 (.call .pere true) ++ [.deliver 1] ++ List.replicate 4 (.call f₁ true) ++
    [.resume f₁, .call f₁ false, .deliver 3, .call .pere true] ++
    List.replicate 4 (.call f₀ true) ++
    [.deliver 0, .resume f₀, .call f₀ true, .deliver 2, .resume .pere, .call .pere true,
      .resume f₁]

theorem livraison_isSome :
    (Ob1.Exec.play (systeme 3 zeros) (voisins 3) livraison
      (Marche.init zeros 0 false)).isSome := by
  decide +kernel

def livree : Marche 3 :=
  (Ob1.Exec.play (systeme 3 zeros) (voisins 3) livraison
    (Marche.init zeros 0 false)).get livraison_isSome

theorem acheminement_livree :
    livree.job.taken (voisins 3) (.fils 1) .pere ≠ [] ∧ Acheminement livree.job :=
  ⟨by decide +kernel,
    acheminement_marche (Ob1.Exec.run_of_play (Option.some_get livraison_isSome).symm)⟩

/-! ## How the runs end -/

section Terminal

variable (hs : Suit frames e g) (ht : e.Terminal (systeme n frames) (voisins n))
include hs ht

theorem Suit.terminal : (systeme n frames).Terminal Set.univ g := by
  obtain ⟨h, hd⟩ := hs.driven
  exact hs.refines.terminal_of_terminal ht (linked frames) hs.reachable hd

theorem Suit.arret (hn : n < 3) :
    e.aborted = some (.pere, .send .temperatureDepart (n + 1)) := by
  have hterminal := hs.terminal ht
  obtain ⟨v, -, hv⟩ := Example.refines hs.reachable
  rw [← hs.refines.aborted]
  cases haborted : g.aborted with
  | none =>
      have hend := pere_finalize hs.reachable Set.univ_nonempty hterminal haborted hv
      have hle := v.envois_le
      omega
  | some pa =>
      obtain ⟨p, a⟩ := pa
      obtain ⟨-, rfl, rfl⟩ := Example.arret hs.reachable haborted
      rfl

omit ht in
theorem Suit.aborted_eq_none (hn : 3 ≤ n) : e.aborted = none := by
  rw [← hs.refines.aborted]
  cases haborted : g.aborted with
  | none => rfl
  | some pa =>
      obtain ⟨p, a⟩ := pa
      have hlt := (Example.arret hs.reachable haborted).1
      omega

theorem Suit.phase_of_halt (haborted : e.aborted = none) {p : Proc n} {s : Local n p}
    (hst : g.config.status p = .ready s) (hact : (systeme n frames).act p s = .halt) :
    e.phase p = .ready s := by
  rw [hs.refines.phase_eq_ready_iff ht haborted]
  refine ⟨hst, fun q k hrecv => ?_⟩
  cases hact.symm.trans hrecv

theorem Suit.phase_of_recv (haborted : e.aborted = none) {r : Fin (n + 1)}
    {f : Fils (Proc n)} (hst : g.config.status (.fils r) = .ready f) (hp : f.point = .recv) :
    ∃ req k, e.phase (.fils r) = .receiving req k := by
  obtain ⟨v, -, hv⟩ := Example.refines hs.reachable
  obtain ⟨h, hd⟩ := hs.driven
  have hetape := (hv.fils_conforme hst).etape frames
  rcases hs.refines.ready_or_waits ht haborted hst with
    hphase | ⟨q, req, k, hphase, -⟩
  · have hno := ((hs.refines.phase_eq_ready_iff ht haborted).mp hphase).2
    rcases hs.refines.stuck ht haborted (linked frames) hs.reachable hd hst with
      hact | ⟨q, k, hact, -⟩
    · rw [hact] at hetape
      cases hetape with
      | fin he => simp [Fils.envoye, hp] at he
    · exact absurd hact (hno q k)
  · exact ⟨req, k, hphase⟩

theorem Suit.fin (hn : 3 ≤ n) :
    e.aborted = none ∧ (∃ s, e.phase .pere = .ready s ∧ s.point = .finalize) ∧
      (∀ r : Fin (n + 1), r.val < 4 →
        ∃ f, e.phase (.fils r) = .ready f ∧ f.point = .finalize) ∧
      ∀ r : Fin (n + 1), 4 ≤ r.val →
        e.job.sent .pere (.fils r) = [] ∧
          ∃ req k, e.phase (.fils r) = .receiving req k := by
  have haborted := hs.aborted_eq_none hn
  have haborted' : g.aborted = none := hs.refines.aborted.trans haborted
  have hterminal := hs.terminal ht
  have hm : (Set.univ : Set Bool).Nonempty := Set.univ_nonempty
  obtain ⟨v, -, hv⟩ := Example.refines hs.reachable
  obtain ⟨h, hd⟩ := hs.driven
  refine ⟨haborted, ?_, ?_, ?_⟩
  · obtain ⟨⟨s, hst, hp⟩, -⟩ := pere_finalize hs.reachable hm hterminal haborted' hv
    refine ⟨s, hs.phase_of_halt ht haborted hst ?_, hp⟩
    change jalon1 _ _ s = .halt
    rw [jalon1, hp]
  · intro r h4
    obtain ⟨f, hst, hp⟩ := fils_finalize hs.reachable hm hterminal haborted' hv h4
    refine ⟨f, hs.phase_of_halt ht haborted hst ?_, hp⟩
    change code (programme r) _ _ _ f = .halt
    cases programme r with
    | coordinateur => rw [code, coordinateur, fils, hp]
    | prg1 => rw [code, prg1, fils, hp]
  · intro r h4
    obtain ⟨f, hst, hp⟩ := fils_recv hs.reachable hm hterminal haborted' hv h4
    obtain ⟨-, -, he, -⟩ := pere_finalize hs.reachable hm hterminal haborted' hv
    refine ⟨?_, hs.phase_of_recv ht haborted hst hp⟩
    have hsent : g.config.sent .pere (.fils r) = v.sent frames .pere (.fils r) :=
      congrFun (congrFun hv.sent .pere) (.fils r)
    have hnil : g.config.sent .pere (.fils r) = [] := by
      rw [hsent, Vue.sent_fils_eq_nil]
      omega
    rwa [hs.refines.sent, Ob1.data, List.map_eq_nil_iff] at hnil

end Terminal

theorem Suit.fin_unique {g' : Etat n} (hs : Suit frames e g) (hs' : Suit frames e' g')
    (ht : e.Terminal (systeme n frames) (voisins n))
    (ht' : e'.Terminal (systeme n frames) (voisins n)) :
    (∃ call, e.aborted = some (.pere, call) ∧ e'.aborted = some (.pere, call)) ∨
      (e.aborted = none ∧ e'.aborted = none ∧
        (∀ p s, e.phase p = .ready s ↔ e'.phase p = .ready s) ∧
        ∀ p q, (voisins n).reaches p q →
          Ob1.data (e.job.sent p q) = Ob1.data (e'.job.sent p q) ∧
          Ob1.data (e.job.taken (voisins n) p q) =
            Ob1.data (e'.job.taken (voisins n) p q)) := by
  have hend := Example.fin_unique hs.reachable (hs.terminal ht) hs'.reachable
    (hs'.terminal ht')
  rw [hs.refines.aborted, hs'.refines.aborted] at hend
  rcases hend with haborted | ⟨haborted, haborted', hconfig⟩
  · exact .inl haborted
  · obtain ⟨h, hd⟩ := hs.driven
    obtain ⟨h', hd'⟩ := hs'.driven
    refine .inr ⟨haborted, haborted', ?_, ?_⟩
    · intro p s
      rw [hs.refines.phase_eq_ready_iff ht haborted,
        hs'.refines.phase_eq_ready_iff ht' haborted', hconfig]
    · intro p q hlink
      rw [← hs.refines.sent, ← hs'.refines.sent, ← hs.refines.recd_eq hd hlink,
        ← hs'.refines.recd_eq hd' hlink, hconfig]
      exact ⟨rfl, rfl⟩

/-- Every run over the engine has an end.  With fewer than 4 children it is that the
father stops the job, and with 4 or more he and the children he serves come to their
end while the others wait.  The order in which fragments arrive and threads handle
them has no effect on it. -/
theorem issue_marche (n : ℕ) (frames : Proc n → Frame) (contextId : UInt16)
    (noAnySource : Bool) :
    (∀ run : ℕ → Marche n, run 0 = Marche.init frames contextId noAnySource →
      ¬∀ k, Marche.Etape frames (run k) (run (k + 1))) ∧
    (∀ e, Marche.Atteint frames contextId noAnySource e →
      e.Terminal (systeme n frames) (voisins n) →
      (n < 3 → e.aborted = some (.pere, .send .temperatureDepart (n + 1))) ∧
      (3 ≤ n → e.aborted = none ∧ (∃ s, e.phase .pere = .ready s ∧ s.point = .finalize) ∧
        (∀ r : Fin (n + 1), r.val < 4 →
          ∃ f, e.phase (.fils r) = .ready f ∧ f.point = .finalize) ∧
        ∀ r : Fin (n + 1), 4 ≤ r.val → e.job.sent .pere (.fils r) = [] ∧
          ∃ req k, e.phase (.fils r) = .receiving req k)) ∧
    ∀ e e', Marche.Atteint frames contextId noAnySource e →
      e.Terminal (systeme n frames) (voisins n) →
      Marche.Atteint frames contextId noAnySource e' →
      e'.Terminal (systeme n frames) (voisins n) →
      (∃ call, e.aborted = some (.pere, call) ∧ e'.aborted = some (.pere, call)) ∨
        (e.aborted = none ∧ e'.aborted = none ∧
          (∀ p s, e.phase p = .ready s ↔ e'.phase p = .ready s) ∧
          ∀ p q, (voisins n).reaches p q →
            Ob1.data (e.job.sent p q) = Ob1.data (e'.job.sent p q) ∧
            Ob1.data (e.job.taken (voisins n) p q) =
              Ob1.data (e'.job.taken (voisins n) p q)) := by
  refine ⟨?_, ?_, ?_⟩
  · intro run h0
    have hinit : Suit frames (run 0) (systeme n frames).init := by
      rw [h0]
      exact .init frames contextId noAnySource
    exact (stutters frames).no_infinite_run
      (fun g g' => (decreasing frames).stepsLeft_lt) run hinit
  · intro e he ht
    obtain ⟨g, hs⟩ := he.suit
    exact ⟨hs.arret ht, hs.fin ht⟩
  · intro e e' he ht he' ht'
    obtain ⟨g, hs⟩ := he.suit
    obtain ⟨g', hs'⟩ := he'.suit
    exact hs.fin_unique hs' ht ht'

end ProgPara.Example
