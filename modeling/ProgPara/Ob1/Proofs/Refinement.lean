import ProgPara.Network.Reachable
import ProgPara.Ob1.Exec
import ProgPara.Ob1.Proofs.Order

/-!
# The matching engine implements the channels of a network

Every move of the processes and of the engine is a step of the network or none at
all: a message is received where a request takes it, whatever the order in which
the fragments arrive, and the engine stops only where the network does.
-/

namespace ProgPara.Ob1

open Function Relation Network Job

variable {P M E : Type*} {S : P → Type*} {prog : Program P M E S} {G : Group P}

/-! ## What a move can do -/

namespace Exec

section Moves

variable [DecidableEq P] (prog G)

inductive Moved (e : Exec P M E S) : Move P → Exec P M E S → Prop
  | abort {p : P} {eager : Bool} {s : S p} {a : E} (hphase : e.phase p = .ready s)
      (hact : prog.act p s = .abort a) :
      Moved e (.call p eager) { e with aborted := some (p, a) }
  | tau {p : P} {eager : Bool} {s s' : S p} (hphase : e.phase p = .ready s)
      (hact : prog.act p s = .tau s') :
      Moved e (.call p eager) { e with phase := update e.phase p (.ready s') }
  | spawn {p : P} {eager : Bool} {s s' : S p} (hphase : e.phase p = .ready s)
      (hact : prog.act p s = .spawn s') :
      Moved e (.call p eager)
        { e with phase := update (launch prog p e.phase) p (.ready s') }
  | send {p q : P} {eager : Bool} {s s' : S p} {m : M} {job : Job P M}
      (hphase : e.phase p = .ready s) (hact : prog.act p s = .send q m s')
      (hjob : e.job.step G (.send p q (if eager then .match_ else .rndv) tag m) = some job) :
      Moved e (.call p eager)
        { e with
          job
          phase := update e.phase p
            (if eager then .ready s' else .sending q (e.job.sent p q).length s') }
  | recv {p q : P} {eager : Bool} {s : S p} {k : M → S p} {job : Job P M}
      (hphase : e.phase p = .ready s) (hact : prog.act p s = .recv q k)
      (hjob : e.job.step G (.start p (recvFrom (G.rank q))) = some job) :
      Moved e (.call p eager)
        { e with
          job
          phase := update e.phase p
            (.receiving (assigned (e.job.comms p) (recvFrom (G.rank q))) k) }
  | acknowledged {p q : P} {n : Nat} {s : S p} (hphase : e.phase p = .sending q n s)
      (htaken : ∃ frag ∈ e.job.taken G p q, frag.segments.1 = n) :
      Moved e (.resume p) { e with phase := update e.phase p (.ready s) }
  | answered {p : P} {k : M → S p} {m : Match (Nat × M)}
      (hphase : e.phase p = .receiving m.req k) (hm : m ∈ e.job.log p) :
      Moved e (.resume p) { e with phase := update e.phase p (.ready (k m.frag.segments.2)) }
  | deliver {n : Nat} {job : Job P M} (hjob : e.job.step G (.deliver n) = some job) :
      Moved e (.deliver n) { e with job }
  | check {p peer : P} {job : Job P M} (hjob : e.job.step G (.check p peer) = some job) :
      Moved e (.check p peer) { e with job }

variable {prog G} {e e' : Exec P M E S} {mv : Move P}

theorem call_moved {p : P} {eager : Bool} (h : e.call prog G p eager = some e') :
    Moved prog G e (.call p eager) e' := by
  unfold call at h
  split at h
  · rename_i s hphase
    split at h
    · cases h
    · cases h
      exact .abort hphase ‹_›
    · cases h
      exact .tau hphase ‹_›
    · cases h
      exact .spawn hphase ‹_›
    · obtain ⟨job, hjob, rfl⟩ := Option.map_eq_some_iff.mp h
      exact .send hphase ‹_› hjob
    · obtain ⟨job, hjob, rfl⟩ := Option.map_eq_some_iff.mp h
      exact .recv hphase ‹_› hjob
  · cases h

theorem finished_moved {p : P} {s : S p} (h : e.finished G p = some s) :
    Moved prog G e (.resume p) { e with phase := update e.phase p (.ready s) } := by
  unfold finished at h
  split at h
  · rename_i q n s' hphase
    split at h
    · rename_i htaken
      cases h
      refine .acknowledged hphase ?_
      simpa using htaken
    · cases h
  · rename_i req k hphase
    obtain ⟨m, hfind, rfl⟩ := Option.map_eq_some_iff.mp h
    have hreq : m.req = req := by simpa using List.find?_some hfind
    subst hreq
    exact .answered hphase (List.mem_of_find?_eq_some hfind)
  · cases h

theorem step_moved (h : e.step prog G mv = some e') :
    e.aborted = none ∧ Moved prog G e mv e' := by
  unfold step at h
  split at h
  · cases h
  · refine ⟨‹_›, ?_⟩
    cases mv with
    | call p eager => exact call_moved h
    | resume p =>
        obtain ⟨s, hs, rfl⟩ := Option.map_eq_some_iff.mp h
        exact finished_moved hs
    | deliver n =>
        obtain ⟨job, hjob, rfl⟩ := Option.map_eq_some_iff.mp h
        exact .deliver hjob
    | check p peer =>
        obtain ⟨job, hjob, rfl⟩ := Option.map_eq_some_iff.mp h
        exact .check hjob

end Moves

end Exec

/-! ## The state of the network -/

def Linked (prog : Program P M E S) (G : Group P) [DecidableEq P] : Prop :=
  ∀ g, prog.Reachable Set.univ g → ∀ p s, g.config.status p = .ready s →
    (∀ q m s', prog.act p s = .send q m s' → G.reaches p q) ∧
      ∀ q k, prog.act p s = .recv q k → G.reaches q p

def data (frags : List (Fragment M)) : List M := frags.map (·.segments.2)

/-- Where the network has a process.  A receive happens there when its request is
matched, and a send that waits ends with the call. -/
inductive Stands (prog : Program P M E S) (G : Group P) (job : Job P M) (p : P) :
    Phase P M (S p) → Status P (S p) → Prop
  | absent : Stands prog G job p .absent .absent
  | ready (s : S p) : Stands prog G job p (.ready s) (.ready s)
  | sending {q : P} {n : Nat} {s : S p} (hlink : G.reaches p q)
      (hlast : (job.sent p q).length = n + 1) :
      Stands prog G job p (.sending q n s) (.blocked q s)
  | waits {q : P} {req : RecvRequest} {s : S p} {k : M → S p} (hlink : G.reaches q p)
      (hact : prog.act p s = .recv q k) (hpeer : req.reqPeer = some (G.rank q))
      (hnone : ∀ m ∈ job.log p, m.req ≠ req) :
      Stands prog G job p (.receiving req k) (.ready s)
  | matched {req : RecvRequest} {k : M → S p} {m : Match (Nat × M)} (hm : m ∈ job.log p)
      (hreq : m.req = req) :
      Stands prog G job p (.receiving req k) (.ready (k m.frag.segments.2))

theorem Stands.congr {job job' : Job P M} {p : P} {ph : Phase P M (S p)}
    {st : Status P (S p)} (h : Stands prog G job p ph st)
    (hsent : job'.sent p = job.sent p) (hlog : job'.log p = job.log p) :
    Stands prog G job' p ph st := by
  cases h with
  | absent => exact .absent
  | ready s => exact .ready s
  | sending hlink hlast => exact .sending hlink (hsent ▸ hlast)
  | waits hlink hact hpeer hnone => exact .waits hlink hact hpeer (hlog ▸ hnone)
  | matched hm hreq => exact .matched (hlog ▸ hm) hreq

structure Refines (prog : Program P M E S) (G : Group P) (e : Exec P M E S)
    (g : State P M E S) : Prop where
  aborted : g.aborted = e.aborted
  status : ∀ p, Stands prog G e.job p (e.phase p) (g.config.status p)
  sent : ∀ p q, g.config.sent p q = data (e.job.sent p q)
  recd : ∀ p q, g.config.recd p q =
    data ((e.job.sent p q).take (e.job.taken G p q).length)
  chan : ∀ p q, g.config.chan p q =
    data ((e.job.sent p q).drop (e.job.taken G p q).length)

/-- The state of the network depends on what was sent and matched, not on where
the fragments are. -/
theorem Refines.congr {e : Exec P M E S} {g : State P M E S} (hr : Refines prog G e g)
    {job : Job P M} (hsent : job.sent = e.job.sent) (hlog : job.log = e.job.log) :
    Refines prog G { e with job } g where
  aborted := hr.aborted
  status p := (hr.status p).congr (congrFun hsent p) (congrFun hlog p)
  sent p q := by
    rw [hr.sent, hsent]
  recd p q := by
    rw [hr.recd, taken, taken, hsent, hlog]
  chan p q := by
    rw [hr.chan, taken, taken, hsent, hlog]

theorem eq_mk_none {e : Exec P M E S} {g : State P M E S} (hr : Refines prog G e g)
    (haborted : e.aborted = none) : g = ⟨g.config, none⟩ := by
  obtain ⟨config, aborted⟩ := g
  have h := hr.aborted
  rw [haborted] at h
  cases h
  rfl

variable [DecidableEq P]

structure Driven (G : Group P) (e : Exec P M E S) (h : Histories P M) : Prop where
  orderly : Orderly G e.job h
  tags : ∀ p q, ∀ frag ∈ e.job.sent p q, frag.hdrTag = tag
  asked : ∀ p, ∀ req ∈ e.job.asked p, req.reqType = .recv ∧ req.reqTag = tag
  cancelled : ∀ p, e.job.cancelled p = []
  answered : ∀ p, ∀ req ∈ e.job.asked p,
    (∃ m ∈ e.job.log p, m.req = req) ∨ ∃ k, e.phase p = .receiving req k
  inside : ∀ p req k, e.phase p = .receiving req k → req ∈ e.job.asked p

namespace Driven

variable {e e' : Exec P M E S} {h h' : Histories P M} {p q : P}

theorem taken_initial (hd : Driven G e h) (hlink : G.reaches p q) :
    e.job.taken G p q <+: e.job.sent p q := by
  refine hd.orderly.taken_initial hlink fun req hreq frag hfrag => ?_
  rw [RecvRequest.tagMatches, (hd.asked q req hreq).2, hd.tags p q frag hfrag]
  rfl

theorem takes (hd : Driven G e h) {m : Match (Nat × M)} (hm : m ∈ e.job.log p) :
    m.req.takes := by
  rw [RecvRequest.takes, (hd.asked p m.req (hd.orderly.mem_log hm).1).1]
  rfl

theorem req_inj (hd : Driven G e h) {m m' : Match (Nat × M)} (hm : m ∈ e.job.log p)
    (hm' : m' ∈ e.job.log p) (hreq : m.req = m'.req) : m = m' :=
  List.inj_on_of_nodup_map (hd.orderly.reqs_nodup p).1 hm hm' hreq

theorem new_matches (hd' : Driven G e' h') {log done : List (Match (Nat × M))}
    (hlog : e'.job.log p = log ++ done)
    (hown : ∀ m ∈ done, ∃ k, e'.phase p = .receiving m.req k) :
    done = [] ∨ ∃ m k, done = [m] ∧ e'.phase p = .receiving m.req k := by
  have hnodup := (hd'.orderly.reqs_nodup p).1
  rw [hlog, List.map_append] at hnodup
  have hdone := (List.nodup_append.mp hnodup).2.1
  cases done with
  | nil => exact .inl rfl
  | cons m rest =>
      obtain ⟨k, hk⟩ := hown m List.mem_cons_self
      refine .inr ⟨m, k, ?_, hk⟩
      cases rest with
      | nil => rfl
      | cons m' rest =>
          obtain ⟨k', hk'⟩ := hown m' (by simp)
          rw [hk] at hk'
          have hreq : m.req = m'.req := (Phase.receiving.inj hk').1
          simp [hreq] at hdone

theorem new_match (hd' : Driven G e' h') {log done : List (Match (Nat × M))}
    (hlog : e'.job.log p = log ++ done) {m : Match (Nat × M)} (hm : m ∈ done) :
    ∀ m' ∈ log, m'.req ≠ m.req := by
  have hnodup := (hd'.orderly.reqs_nodup p).1
  rw [hlog, List.map_append] at hnodup
  intro m' hm' hreq
  exact (List.nodup_append.mp hnodup).2.2 _ (List.mem_map_of_mem hm') _
    (List.mem_map_of_mem hm) hreq

end Driven

/-! ## Matches -/

section Receive

variable {e e' : Exec P M E S} {g : State P M E S} {h' : Histories P M} {p q : P} {s : S p}
  {k : M → S p} {m : Match (Nat × M)} (hd' : Driven G e' h') (hlink : G.reaches q p)
  (hpeer : m.req.reqPeer = some (G.rank q)) (hsent : e'.job.sent = e.job.sent)
  (hlog : e'.job.log = update e.job.log p (e.job.log p ++ [m]))
include hd' hpeer hlog

theorem hdrSrc_eq : m.frag.hdrSrc = G.rank q := by
  have hm : m ∈ e'.job.log p := by
    rw [hlog, update_self]
    exact List.mem_append_right _ (List.mem_singleton_self m)
  have haccepts := (hd'.orderly.mem_log hm).2.1
  simp only [RecvRequest.accepts, isWild, isSpecific, hpeer, Bool.and_eq_true] at haccepts
  have hrank : G.rank q = m.frag.hdrSrc := by simpa using haccepts.1
  exact hrank.symm

theorem taken_self : e'.job.taken G q p = e.job.taken G q p ++ [m.frag] := by
  have hm : m ∈ e'.job.log p := by
    rw [hlog, update_self]
    exact List.mem_append_right _ (List.mem_singleton_self m)
  rw [taken, hlog, update_self, takenFrom_append, takenFrom_of_takes (hd'.takes hm)]
  simp [taken, hdrSrc_eq hd' hpeer hlog]

include hlink

theorem taken_other {a b : P} (hab : ¬(a = q ∧ b = p)) :
    e'.job.sent a b = [] ∨ e'.job.taken G a b = e.job.taken G a b := by
  by_cases hb : b = p
  · subst hb
    by_cases hlink' : G.reaches a b
    · refine .inr ?_
      have hm : m ∈ e'.job.log b := by
        rw [hlog, update_self]
        exact List.mem_append_right _ (List.mem_singleton_self m)
      have hne : G.rank q ≠ G.rank a := fun heq =>
        hab ⟨G.rank_inj hlink' hlink heq.symm, rfl⟩
      rw [taken, hlog, update_self, takenFrom_append, takenFrom_of_takes (hd'.takes hm)]
      simp [taken, hdrSrc_eq hd' hpeer hlog, hne]
    · refine .inl (by_contra fun hne => ?_)
      exact hlink' (hd'.orderly.accounted.linked a b hne)
  · refine .inr ?_
    rw [taken, taken, hlog, update_of_ne hb]

include hsent

/-- The message is the oldest one of its channel. -/
theorem sent_split : ∃ rest, e.job.sent q p = e.job.taken G q p ++ m.frag :: rest := by
  obtain ⟨rest, hrest⟩ := hd'.taken_initial hlink
  rw [taken_self hd' hpeer hlog, hsent, List.append_assoc, List.singleton_append] at hrest
  exact ⟨rest, hrest.symm⟩

/-- A request that gets its message is a receive of the network. -/
theorem Refines.recv (hr : Refines prog G e g) (haborted : e.aborted = none)
    (haborted' : e'.aborted = none) (hst : g.config.status p = .ready s)
    (hact : prog.act p s = .recv q k)
    (hphase : e'.phase = update e.phase p (.receiving m.req k)) :
    ∃ g', prog.Step Set.univ g g' ∧ Refines prog G e' g' := by
  have hself := taken_self hd' hpeer hlog
  obtain ⟨rest, hrest⟩ := sent_split hd' hlink hpeer hsent hlog
  have hother : ∀ a b, ¬(a = q ∧ b = p) → _ := fun a b hab =>
    taken_other hd' hlink hpeer hlog hab
  have hchan : g.config.chan q p = m.frag.segments.2 :: data rest := by
    rw [hr.chan, hrest, List.drop_left]
    rfl
  have hoffers : prog.Offers true p g.config _ := .recv hst hact hchan
  rw [eq_mk_none hr haborted]
  refine ⟨_, hoffers.step (Set.mem_univ true), ?_, ?_, ?_, ?_, ?_⟩
  · rw [haborted']
  · intro r
    rw [hphase]
    by_cases hrp : r = p
    · subst hrp
      rw [update_self, Program.apply_status_self]
      refine .matched ?_ rfl
      rw [hlog, update_self]
      exact List.mem_append_right _ (List.mem_singleton_self m)
    · rw [update_of_ne hrp, Program.apply_status_of_ne hrp]
      refine (hr.status r).congr (congrFun hsent r) ?_
      rw [hlog, update_of_ne hrp]
  · intro a b
    rw [hsent]
    exact hr.sent a b
  · intro a b
    simp only [Program.apply, Transfer.recd]
    by_cases hab : a = q ∧ b = p
    · obtain ⟨rfl, rfl⟩ := hab
      have htake : (e.job.sent a b).take ((e.job.taken G a b).length + 1) =
          e.job.taken G a b ++ [m.frag] := by
        rw [hrest, List.take_length_add_append]
        rfl
      rw [modifyAt_self, hr.recd, hself, hsent, List.length_append, List.length_singleton,
        htake, hrest, List.take_left]
      simp [data]
    · rw [modifyAt_of_ne hab, hr.recd]
      rcases hother a b hab with hnil | heq
      · rw [← hsent, hnil, List.take_nil, List.take_nil]
      · rw [hsent, heq]
  · intro a b
    simp only [Program.apply, Transfer.chan]
    by_cases hab : a = q ∧ b = p
    · obtain ⟨rfl, rfl⟩ := hab
      have hdrop : (e.job.sent a b).drop ((e.job.taken G a b).length + 1) = rest := by
        rw [hrest, List.drop_length_add_append]
        rfl
      rw [modifyAt_self, hchan, hself, hsent, List.length_append, List.length_singleton,
        hdrop]
      rfl
    · rw [modifyAt_of_ne hab, hr.chan]
      rcases hother a b hab with hnil | heq
      · rw [← hsent, hnil, List.drop_nil, List.drop_nil]
      · rw [hsent, heq]

end Receive

/-! ## Calls that do not receive -/

section Calls

variable {e : Exec P M E S} {g : State P M E S} {h : Histories P M} {p q : P} {b : Bool}
  {s s' : S p} {m : M}

theorem Refines.proceed (hr : Refines prog G e g) (haborted : e.aborted = none)
    (hoffers : prog.Offers b p g.config { next := .ready s' }) :
    ∃ g', prog.Step Set.univ g g' ∧
      Refines prog G { e with phase := update e.phase p (.ready s') } g' := by
  rw [eq_mk_none hr haborted]
  refine ⟨_, hoffers.step (Set.mem_univ b), haborted.symm, ?_, hr.sent, hr.recd, hr.chan⟩
  intro r
  dsimp only
  by_cases hrp : r = p
  · subst hrp
    rw [update_self, Program.apply_status_self]
    exact .ready s'
  · rw [update_of_ne hrp, Program.apply_status_of_ne hrp]
    exact hr.status r

theorem Stands.launch {job : Job P M} {r : P} {phase : (q : P) → Phase P M (S q)}
    {st : (q : P) → Status P (S q)} (h : Stands prog G job r (phase r) (st r)) :
    Stands prog G job r (Exec.launch prog p phase r) (prog.launch p st r) := by
  unfold Exec.launch Program.launch
  generalize phase r = ph at h
  generalize st r = status at h
  cases h with
  | absent =>
      simp only
      split
      · exact .ready _
      · exact .absent
  | ready s => exact .ready s
  | sending hlink hlast => exact .sending hlink hlast
  | waits hlink hact hpeer hnone => exact .waits hlink hact hpeer hnone
  | matched hm hreq => exact .matched hm hreq

theorem Refines.spawn (hr : Refines prog G e g) (haborted : e.aborted = none)
    (hst : g.config.status p = .ready s) (hact : prog.act p s = .spawn s') :
    ∃ g', prog.Step Set.univ g g' ∧
      Refines prog G
        { e with phase := update (Exec.launch prog p e.phase) p (.ready s') } g' := by
  have hoffers : prog.Offers true p g.config _ := .spawn hst hact
  rw [eq_mk_none hr haborted]
  refine ⟨_, hoffers.step (Set.mem_univ true), haborted.symm, ?_, hr.sent, hr.recd,
    hr.chan⟩
  intro r
  dsimp only
  by_cases hrp : r = p
  · subst hrp
    rw [update_self, Program.apply_status_self]
    exact .ready s'
  · rw [update_of_ne hrp, Program.apply_status_of_ne hrp]
    exact (hr.status r).launch

theorem Refines.send (hr : Refines prog G e g) (haborted : e.aborted = none)
    (hd : Driven G e h) (hlink : G.reaches p q) {job : Job P M} {frag : Fragment M}
    (hst : g.config.status p = .ready s) (hact : prog.act p s = .send q m s')
    (hfrag : frag.segments.2 = m)
    (hsent : job.sent = modifyAt p q (· ++ [frag]) e.job.sent)
    (hlog : job.log = e.job.log) :
    ∃ g', prog.Step Set.univ g g' ∧
      Refines prog G
        { e with
          job
          phase := update e.phase p
            (if b then .ready s' else .sending q (e.job.sent p q).length s') } g' := by
  have hoffers : prog.Offers b p g.config _ := .send hst hact
  have hle := (hd.taken_initial hlink).length_le
  have hself : job.sent p q = e.job.sent p q ++ [frag] := by
    rw [hsent, modifyAt_self]
  have hother : ∀ x y, ¬(x = p ∧ y = q) → job.sent x y = e.job.sent x y := by
    intro x y hxy
    rw [hsent, modifyAt_of_ne hxy]
  have htaken : ∀ x y, job.taken G x y = e.job.taken G x y := by
    intro x y
    rw [taken, taken, hlog]
  rw [eq_mk_none hr haborted]
  refine ⟨_, hoffers.step (Set.mem_univ b), haborted.symm, ?_, ?_, ?_, ?_⟩
  · intro r
    dsimp only
    by_cases hrp : r = p
    · subst hrp
      rw [update_self, Program.apply_status_self]
      cases b with
      | true => exact .ready s'
      | false =>
          refine .sending hlink ?_
          simp [hself]
    · rw [update_of_ne hrp, Program.apply_status_of_ne hrp]
      refine (hr.status r).congr ?_ (congrFun hlog r)
      funext y
      exact hother r y fun h => hrp h.1
  · intro x y
    simp only [Program.apply, Transfer.sent]
    by_cases hxy : x = p ∧ y = q
    · obtain ⟨rfl, rfl⟩ := hxy
      rw [modifyAt_self, hr.sent, hself]
      simp [data, hfrag]
    · rw [modifyAt_of_ne hxy, hr.sent, hother x y hxy]
  · intro x y
    simp only [Program.apply, Transfer.recd]
    by_cases hxy : x = p ∧ y = q
    · obtain ⟨rfl, rfl⟩ := hxy
      rw [hr.recd, htaken, hself, List.take_append_of_le_length hle]
    · rw [hr.recd, htaken, hother x y hxy]
  · intro x y
    simp only [Program.apply, Transfer.chan]
    by_cases hxy : x = p ∧ y = q
    · obtain ⟨rfl, rfl⟩ := hxy
      rw [modifyAt_self, hr.chan, htaken, hself, List.drop_append_of_le_length hle]
      simp [data, hfrag]
    · rw [modifyAt_of_ne hxy, hr.chan, htaken, hother x y hxy]

theorem Refines.chan_eq_nil (hr : Refines prog G e g) (hd : Driven G e h)
    (hlink : G.reaches p q) {n : Nat} (hlast : (e.job.sent p q).length = n + 1)
    (htaken : ∃ frag ∈ e.job.taken G p q, frag.segments.1 = n) :
    g.config.chan p q = [] := by
  obtain ⟨frag, hmem, hn⟩ := htaken
  have hinitial := hd.taken_initial hlink
  obtain ⟨i, hi, hget⟩ := List.getElem_of_mem hmem
  have hsent : (e.job.sent p q)[i]? = some frag := by
    rw [← hget, hinitial.getElem hi]
    exact List.getElem?_eq_getElem _
  have hnumber := (hd.orderly.accounted.numbered p q i frag hsent).1
  rw [hr.chan, List.drop_eq_nil_of_le (by omega)]
  rfl

end Calls

/-! ## Every move is a step or none -/

section Step

variable {e e' : Exec P M E S} {g : State P M E S} {h h' : Histories P M} {p : P}

theorem Driven.of_phase (hd : Driven G e h) {phase : (p : P) → Phase P M (S p)}
    (hphase : ∀ p req k, e.phase p = .receiving req k →
      (∃ m ∈ e.job.log p, m.req = req) ∨ ∃ k', phase p = .receiving req k')
    (hinside : ∀ p req k, phase p = .receiving req k → e.phase p = .receiving req k) :
    Driven G { e with phase } h :=
  { hd with
    answered := fun p req hreq => by
      rcases hd.answered p req hreq with hlog | ⟨k, hk⟩
      · exact .inl hlog
      · exact hphase p req k hk
    inside := fun p req k hk => hd.inside p req k (hinside p req k hk) }

theorem Driven.of_update (hd : Driven G e h) {ph : Phase P M (S p)}
    (hp : ∀ req k, e.phase p ≠ .receiving req k) (hph : ∀ req k, ph ≠ .receiving req k) :
    Driven G { e with phase := update e.phase p ph } h := by
  refine hd.of_phase (fun r req k hr => .inr ⟨k, ?_⟩) fun r req k hr => ?_
  · rw [update_of_ne, hr]
    rintro rfl
    exact hp req k hr
  · by_cases hrp : r = p
    · subst hrp
      rw [update_self] at hr
      exact absurd hr (hph req k)
    · rwa [update_of_ne hrp] at hr

theorem Exec.launch_receiving {phase : (q : P) → Phase P M (S q)} {r : P} {req : RecvRequest}
    {k : M → S r} : launch prog p phase r = .receiving req k ↔ phase r = .receiving req k := by
  unfold launch
  split
  · rename_i habsent
    rw [habsent]
    split
    · simp
    · simp
  · rfl

theorem Driven.of_launch (hd : Driven G e h) {ph : Phase P M (S p)}
    (hp : ∀ req k, e.phase p ≠ .receiving req k) (hph : ∀ req k, ph ≠ .receiving req k) :
    Driven G { e with phase := update (Exec.launch prog p e.phase) p ph } h := by
  have hlaunch : Driven G { e with phase := Exec.launch prog p e.phase } h :=
    hd.of_phase (fun r req k hr => .inr ⟨k, Exec.launch_receiving.mpr hr⟩)
      fun r req k => Exec.launch_receiving.mp
  exact hlaunch.of_update (fun req k hk => hp req k (Exec.launch_receiving.mp hk)) hph

theorem Driven.of_job (hd : Driven G e h) {job : Job P M} (ho : Orderly G job h')
    (hsent : job.sent = e.job.sent) (hasked : job.asked = e.job.asked)
    (hcancelled : job.cancelled = e.job.cancelled)
    (hlog : ∀ p, ∀ m ∈ e.job.log p, m ∈ job.log p) : Driven G { e with job } h' where
  orderly := ho
  tags := hsent ▸ hd.tags
  asked := hasked ▸ hd.asked
  cancelled := hcancelled ▸ hd.cancelled
  answered p req hreq := by
    rcases hd.answered p req (hasked ▸ hreq) with ⟨m, hm, hmreq⟩ | hk
    · exact .inl ⟨m, hlog p m hm, hmreq⟩
    · exact .inr hk
  inside := hasked ▸ hd.inside

/-- What the engine does with a fragment is a receive of the network or nothing. -/
theorem Refines.engine (hr : Refines prog G e g) (hd : Driven G e h)
    (haborted : e.aborted = none) {job : Job P M} (ho : Orderly G job h')
    (hsent : job.sent = e.job.sent) (hasked : job.asked = e.job.asked)
    (hcancelled : job.cancelled = e.job.cancelled) {done : List (Match (Nat × M))}
    (hlog : job.log = update e.job.log p (e.job.log p ++ done)) :
    Driven G { e with job } h' ∧
      ∃ g', (prog.Step Set.univ g g' ∨ g' = g ∧ job.log = e.job.log) ∧
        Refines prog G { e with job } g' := by
  have hself : job.log p = e.job.log p ++ done := by
    rw [hlog, update_self]
  have hgrows : ∀ q, ∀ m ∈ e.job.log q, m ∈ job.log q := by
    intro q m hm
    rw [hlog]
    by_cases hq : q = p
    · subst hq
      rw [update_self]
      exact List.mem_append_left _ hm
    · rwa [update_of_ne hq]
  have hd' := hd.of_job ho hsent hasked hcancelled hgrows
  refine ⟨hd', ?_⟩
  have hown : ∀ m ∈ done, ∃ k, e.phase p = .receiving m.req k := by
    intro m hm
    have hm' : m ∈ job.log p := hself ▸ List.mem_append_right _ hm
    have hreq : m.req ∈ e.job.asked p := hasked ▸ (ho.mem_log hm').1
    rcases hd.answered p m.req hreq with ⟨m', hm', heq⟩ | hk
    · exact absurd heq (hd'.new_match hself hm m' hm')
    · exact hk
  rcases hd'.new_matches hself hown with rfl | ⟨m, k, rfl, hphase⟩
  · rw [List.append_nil, update_eq_self] at hlog
    exact ⟨g, .inr ⟨rfl, hlog⟩, hr.congr hsent hlog⟩
  · have hstands := hr.status p
    change e.phase p = _ at hphase
    rw [hphase] at hstands
    generalize hst : g.config.status p = st at hstands
    cases hstands with
    | waits hlink hact hpeer hnone =>
        have hphase' : e.phase = update e.phase p (.receiving m.req k) := by
          rw [← hphase, update_eq_self]
        obtain ⟨g', hstep, hr'⟩ :=
          Refines.recv hd' hlink hpeer hsent hlog hr haborted haborted hst hact hphase'
        exact ⟨g', .inl hstep, hr'⟩
    | matched hm hreq =>
        exact absurd hreq (hd'.new_match hself (List.mem_singleton_self m) _ hm)

section Start

variable {q : P} {s : S p} {k : M → S p} {req : RecvRequest} {job : Job P M}
  {done : List (Match (Nat × M))} (hd : Driven G e h) (hphase : e.phase p = .ready s)
  (hreq : req = assigned (e.job.comms p) (recvFrom (G.rank q)))

theorem start_eq
    (hjob : e.job.step G (.start p (recvFrom (G.rank q))) = some job) :
    ∃ done, job.sent = e.job.sent ∧ job.cancelled = e.job.cancelled ∧
      job.asked = update e.job.asked p
        (e.job.asked p ++ [assigned (e.job.comms p) (recvFrom (G.rank q))]) ∧
      job.log = update e.job.log p (e.job.log p ++ done) := by
  cases Job.step_moved hjob with
  | start => exact ⟨_, rfl, rfl, rfl, rfl⟩

include hd hphase

theorem Driven.idle : ∀ req ∈ e.job.asked p, ∃ m ∈ e.job.log p, m.req = req := by
  intro req hreq
  rcases hd.answered p req hreq with hm | ⟨k, hk⟩
  · exact hm
  · rw [hphase] at hk
    cases hk

include hreq

theorem Driven.start (ho : Orderly G job h') (hsent : job.sent = e.job.sent)
    (hcancelled : job.cancelled = e.job.cancelled)
    (hasked : job.asked = update e.job.asked p (e.job.asked p ++ [req]))
    (hlog : job.log = update e.job.log p (e.job.log p ++ done)) :
    Driven G { e with job, phase := update e.phase p (.receiving req k) } h' := by
  refine ⟨ho, hsent ▸ hd.tags, ?_, hcancelled ▸ hd.cancelled, ?_, ?_⟩
  · intro r req' hreq'
    dsimp only at hreq'
    rw [hasked] at hreq'
    by_cases hrp : r = p
    · subst hrp
      rw [update_self] at hreq'
      rcases List.mem_append.mp hreq' with hreq' | hreq'
      · exact hd.asked r req' hreq'
      · rw [List.mem_singleton.mp hreq', hreq]
        exact ⟨rfl, rfl⟩
    · rw [update_of_ne hrp] at hreq'
      exact hd.asked r req' hreq'
  · intro r req' hreq'
    dsimp only at hreq' ⊢
    rw [hasked] at hreq'
    rw [hlog]
    by_cases hrp : r = p
    · subst hrp
      rw [update_self] at hreq' ⊢
      rw [update_self]
      rcases List.mem_append.mp hreq' with hreq' | hreq'
      · obtain ⟨m, hm, hmreq⟩ := hd.idle hphase req' hreq'
        exact .inl ⟨m, List.mem_append_left _ hm, hmreq⟩
      · exact .inr ⟨k, List.mem_singleton.mp hreq' ▸ rfl⟩
    · rw [update_of_ne hrp] at hreq' ⊢
      rw [update_of_ne hrp]
      exact hd.answered r req' hreq'
  · intro r req' k' hk'
    dsimp only at hk' ⊢
    rw [hasked]
    by_cases hrp : r = p
    · subst hrp
      rw [update_self] at hk' ⊢
      rw [← (Phase.receiving.inj hk').1]
      exact List.mem_append_right _ (List.mem_singleton_self req)
    · rw [update_of_ne hrp] at hk' ⊢
      exact hd.inside r req' k' hk'

theorem Refines.start (hr : Refines prog G e g) (haborted : e.aborted = none)
    (hlink : G.reaches q p) (hst : g.config.status p = .ready s)
    (hact : prog.act p s = .recv q k)
    (hd' : Driven G { e with job, phase := update e.phase p (.receiving req k) } h')
    (hsent : job.sent = e.job.sent)
    (hasked : job.asked = update e.job.asked p (e.job.asked p ++ [req]))
    (hlog : job.log = update e.job.log p (e.job.log p ++ done)) :
    ∃ g', (prog.Step Set.univ g g' ∨ g' = g ∧ job.log = e.job.log ∧
        ∀ m ∈ e.job.log p, m.req ≠ req) ∧
      Refines prog G { e with job, phase := update e.phase p (.receiving req k) } g' := by
  have hself : job.log p = e.job.log p ++ done := by
    rw [hlog, update_self]
  have hown : ∀ m ∈ done, m.req = req := by
    intro m hm
    have hm' : m ∈ job.log p := hself ▸ List.mem_append_right _ hm
    have hmreq : m.req ∈ job.asked p := (hd'.orderly.mem_log hm').1
    rw [hasked, update_self] at hmreq
    rcases List.mem_append.mp hmreq with hmreq | hmreq
    · obtain ⟨m', hm', heq⟩ := hd.idle hphase m.req hmreq
      exact absurd heq (hd'.new_match hself hm m' hm')
    · exact List.mem_singleton.mp hmreq
  have hpeer : req.reqPeer = some (G.rank q) := by
    rw [hreq]
    rfl
  have hphase' : ∀ m ∈ done, ∃ k', update e.phase p (.receiving req k) p =
      .receiving m.req k' := by
    intro m hm
    rw [hown m hm, update_self]
    exact ⟨k, rfl⟩
  rcases hd'.new_matches hself hphase' with rfl | ⟨m, k', rfl, -⟩
  · rw [List.append_nil, update_eq_self] at hlog
    have hcongr := hr.congr hsent hlog
    have hnone : ∀ m ∈ e.job.log p, m.req ≠ req := by
      intro m hm heq
      have hnumbered := (hd.orderly.receiving p).numbered m.req (hd.orderly.mem_log hm).1
      rw [heq, hreq] at hnumbered
      exact Nat.lt_irrefl _ hnumbered
    refine ⟨g, .inr ⟨rfl, hlog, hnone⟩, hcongr.aborted, ?_, hcongr.sent, hcongr.recd,
      hcongr.chan⟩
    intro r
    dsimp only
    by_cases hrp : r = p
    · subst hrp
      rw [update_self, hst]
      exact .waits hlink hact hpeer (hlog ▸ hnone)
    · rw [update_of_ne hrp]
      exact hcongr.status r
  · have hm := hown m (List.mem_singleton_self m)
    obtain ⟨g', hstep, hr'⟩ := Refines.recv hd' hlink (hm ▸ hpeer) hsent hlog hr haborted
      haborted hst hact (hm ▸ rfl)
    exact ⟨g', .inl hstep, hr'⟩

end Start

section Send

variable {q : P} {s' : S p} {m : M} {job : Job P M} {frag : Fragment M} {ph : Phase P M (S p)}

theorem send_eq {hdrType : HdrType} {t : Int}
    (hjob : e.job.step G (.send p q hdrType t m) = some job) :
    ∃ frag, frag.segments.2 = m ∧ frag.hdrTag = t ∧
      job.sent = modifyAt p q (· ++ [frag]) e.job.sent ∧ job.log = e.job.log ∧
      job.asked = e.job.asked ∧ job.cancelled = e.job.cancelled := by
  cases Job.step_moved hjob with
  | @send _ _ _ _ _ sent hlink hsent =>
      obtain ⟨seq, hfrag⟩ := sendFrag_frag (e.job.comms p) (G.rank q) hdrType t
        ((e.job.sent p q).length, m)
      rw [← hsent] at hfrag
      refine ⟨sent.2, ?_, ?_, rfl, ?_, rfl, rfl⟩
      · rw [hfrag]
      · rw [hfrag]
      · simp [launch, Job.set]

theorem Driven.send (hd : Driven G e h) (hp : ∀ req k, e.phase p ≠ .receiving req k)
    (hph : ∀ req k, ph ≠ .receiving req k) (ho : Orderly G job h') (htag : frag.hdrTag = tag)
    (hsent : job.sent = modifyAt p q (· ++ [frag]) e.job.sent)
    (hlog : job.log = e.job.log) (hasked : job.asked = e.job.asked)
    (hcancelled : job.cancelled = e.job.cancelled) :
    Driven G { e with job, phase := update e.phase p ph } h' := by
  have hdriven : Driven G { e with phase := update e.phase p ph } h :=
    hd.of_update hp hph
  refine ⟨ho, ?_, hasked ▸ hd.asked, hcancelled ▸ hd.cancelled, ?_, ?_⟩
  · intro x y f hf
    dsimp only at hf
    rw [hsent] at hf
    by_cases hxy : x = p ∧ y = q
    · obtain ⟨rfl, rfl⟩ := hxy
      rw [modifyAt_self] at hf
      rcases List.mem_append.mp hf with hf | hf
      · exact hd.tags x y f hf
      · rw [List.mem_singleton.mp hf, htag]
    · rw [modifyAt_of_ne hxy] at hf
      exact hd.tags x y f hf
  · dsimp only
    rw [hasked, hlog]
    exact hdriven.answered
  · dsimp only
    rw [hasked]
    exact hdriven.inside

end Send

omit [DecidableEq P] in
theorem Refines.status_ready (hr : Refines prog G e g) {s : S p}
    (hphase : e.phase p = .ready s) : g.config.status p = .ready s := by
  have hstands := hr.status p
  rw [hphase] at hstands
  generalize g.config.status p = st at hstands
  cases hstands with
  | ready => rfl

theorem Refines.acknowledged (hr : Refines prog G e g) (hd : Driven G e h)
    (haborted : e.aborted = none) {q : P} {n : Nat} {s : S p}
    (hphase : e.phase p = .sending q n s)
    (htaken : ∃ frag ∈ e.job.taken G p q, frag.segments.1 = n) :
    ∃ g', prog.Step Set.univ g g' ∧
      Refines prog G { e with phase := update e.phase p (.ready s) } g' := by
  have hstands := hr.status p
  rw [hphase] at hstands
  generalize hst : g.config.status p = st at hstands
  cases hstands with
  | sending hlink hlast =>
      have hoffers : prog.Offers true p g.config _ :=
        .release hst (hr.chan_eq_nil hd hlink hlast htaken)
      exact hr.proceed haborted hoffers

theorem Refines.answered (hr : Refines prog G e g) (hd : Driven G e h)
    {k : M → S p} {m : Match (Nat × M)} (hphase : e.phase p = .receiving m.req k)
    (hm : m ∈ e.job.log p) :
    Refines prog G { e with phase := update e.phase p (.ready (k m.frag.segments.2)) } g := by
  refine { hr with status := fun r => ?_ }
  dsimp only
  by_cases hrp : r = p
  · subst hrp
    rw [update_self]
    have hstands := hr.status r
    rw [hphase] at hstands
    generalize g.config.status r = st at hstands
    cases hstands with
    | waits _ _ _ hnone => exact absurd rfl (hnone m hm)
    | matched hm' hreq =>
        rw [hd.req_inj hm' hm hreq]
        exact .ready _
  · rw [update_of_ne hrp]
    exact hr.status r

/-- The moves that the network does not see. -/
inductive Exec.Silent (G : Group P) (e : Exec P M E S) : Exec P M E S → Prop
  | waits {p : P} {s : S p} {req req' : RecvRequest} {k : M → S p} {job : Job P M}
      (hphase : e.phase p = .ready s) (hjob : e.job.step G (.start p req') = some job)
      (hlog : job.log = e.job.log) (hnone : ∀ m ∈ e.job.log p, m.req ≠ req) :
      Silent G e { e with job, phase := update e.phase p (.receiving req k) }
  | answered {p : P} {s : S p} {k : M → S p} {m : Match (Nat × M)}
      (hphase : e.phase p = .receiving m.req k) (hm : m ∈ e.job.log p) :
      Silent G e { e with phase := update e.phase p (.ready s) }
  | deliver {n : Nat} {job : Job P M} (hjob : e.job.step G (.deliver n) = some job)
      (hlog : job.log = e.job.log) : Silent G e { e with job }
  | check {p peer : P} {job : Job P M} (hjob : e.job.step G (.check p peer) = some job)
      (hlog : job.log = e.job.log) : Silent G e { e with job }

theorem Exec.step_refines (hlinked : Linked prog G) (hreach : prog.Reachable Set.univ g)
    (hr : Refines prog G e g) (hd : Driven G e h) {mv : Move P}
    (hpaced : ∀ a, e.action prog G mv = some a → Paced G e.job a)
    (hstep : e.step prog G mv = some e') :
    ∃ h' g', Driven G e' h' ∧ (prog.Step Set.univ g g' ∨ g' = g ∧ Silent G e e') ∧
      Refines prog G e' g' := by
  obtain ⟨haborted, hmoved⟩ := step_moved hstep
  have hidle : ∀ {p : P} {s : S p}, e.phase p = .ready s →
      ∀ req k, e.phase p ≠ .receiving req k := by
    intro p s hphase req k hk
    rw [hphase] at hk
    cases hk
  cases hmoved with
  | @abort p eager s a hphase hact =>
      have hst := hr.status_ready hphase
      have haborts := Program.aborts_eq_some_iff.mpr ⟨s, hst, hact⟩
      refine ⟨h, ⟨g.config, some (p, a)⟩, { hd with }, ?_, { hr with aborted := rfl }⟩
      rw [eq_mk_none hr haborted]
      exact .inl (Program.step_of_aborts (Set.mem_univ true) haborts)
  | @tau p eager s s' hphase hact =>
      have hoffers : prog.Offers true p g.config _ := .tau (hr.status_ready hphase) hact
      obtain ⟨g', hg, hr'⟩ := hr.proceed haborted hoffers
      exact ⟨h, g', hd.of_update (hidle hphase) nofun, .inl hg, hr'⟩
  | spawn hphase hact =>
      obtain ⟨g', hg, hr'⟩ := hr.spawn haborted (hr.status_ready hphase) hact
      exact ⟨h, g', hd.of_launch (hidle hphase) nofun, .inl hg, hr'⟩
  | @send p q eager s s' m job hphase hact hjob =>
      have hst := hr.status_ready hphase
      have hlink := (hlinked g hreach p s hst).1 q m s' hact
      obtain ⟨h', ho⟩ := hd.orderly.step (hpaced _ (by simp [action, hphase, hact])) hjob
      obtain ⟨frag, hm, htag, hsent, hlog, hasked, hcancelled⟩ := send_eq hjob
      obtain ⟨g', hg, hr'⟩ := hr.send haborted hd hlink hst hact hm hsent hlog
      refine ⟨h', g', hd.send (hidle hphase) ?_ ho htag hsent hlog hasked hcancelled,
        .inl hg, hr'⟩
      cases eager with
      | true => exact nofun
      | false => exact nofun
  | @recv p q eager s k job hphase hact hjob =>
      have hst := hr.status_ready hphase
      have hlink := (hlinked g hreach p s hst).2 q k hact
      obtain ⟨h', ho⟩ := hd.orderly.step (hpaced _ (by simp [action, hphase, hact])) hjob
      obtain ⟨done, hsent, hcancelled, hasked, hlog⟩ := start_eq hjob
      have hd' := hd.start (k := k) hphase rfl ho hsent hcancelled hasked hlog
      obtain ⟨g', hg, hr'⟩ :=
        Refines.start hd hphase rfl hr haborted hlink hst hact hd' hsent hasked hlog
      refine ⟨h', g', hd', ?_, hr'⟩
      exact hg.imp id fun ⟨heq, hlog, hnone⟩ => ⟨heq, .waits hphase hjob hlog hnone⟩
  | acknowledged hphase htaken =>
      obtain ⟨g', hg, hr'⟩ := hr.acknowledged hd haborted hphase htaken
      refine ⟨h, g', hd.of_update (fun req k hk => ?_) nofun, .inl hg, hr'⟩
      rw [hphase] at hk
      cases hk
  | @answered p k m hphase hm =>
      refine ⟨h, g, hd.of_phase (fun r req k' hk => ?_) fun r req k' hk => ?_,
        .inr ⟨rfl, .answered hphase hm⟩, hr.answered hd hphase hm⟩
      · by_cases hrp : r = p
        · subst hrp
          rw [hphase] at hk
          exact .inl ⟨m, hm, (Phase.receiving.inj hk).1⟩
        · exact .inr ⟨k', by rw [update_of_ne hrp, hk]⟩
      · by_cases hrp : r = p
        · subst hrp
          rw [update_self] at hk
          cases hk
        · rwa [update_of_ne hrp] at hk
  | @deliver n job hjob =>
      obtain ⟨h', ho⟩ := hd.orderly.step (hpaced _ rfl) hjob
      cases Job.step_moved hjob with
      | deliver =>
          obtain ⟨hd', g', hg, hr'⟩ := hr.engine hd haborted ho rfl rfl rfl rfl
          exact ⟨h', g', hd', hg.imp id fun ⟨heq, hlog⟩ => ⟨heq, .deliver hjob hlog⟩, hr'⟩
  | @check p peer job hjob =>
      obtain ⟨h', ho⟩ := hd.orderly.step (hpaced _ rfl) hjob
      cases Job.step_moved hjob with
      | check =>
          obtain ⟨hd', g', hg, hr'⟩ := hr.engine hd haborted ho rfl rfl rfl rfl
          exact ⟨h', g', hd', hg.imp id fun ⟨heq, hlog⟩ => ⟨heq, .check hjob hlog⟩, hr'⟩

end Step

end ProgPara.Ob1
