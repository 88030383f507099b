import Mathlib.Algebra.BigOperators.Group.Finset.Basic
import Mathlib.Data.Fintype.Prod
import ProgPara.Network.Stuttering
import ProgPara.Network.Termination
import ProgPara.Ob1.Proofs.Progress

/-!
# The work of the engine

A fragment in flight, one in a ring and a thread that is to look for the next one
count for three, two and one: handling a fragment lowers the sum, and with it every
run of a program whose own runs end has an end over the engine.
-/

namespace ProgPara.Ob1

open Function Relation Network Job

variable {P M E : Type*} {S : P → Type*} [DecidableEq P] {prog : Program P M E S}
  {G : Group P}

theorem sum_add_le_of_eq_off {α : Type*} [Fintype α] [DecidableEq α] {f f' : α → Nat}
    {x : α} {a b : Nat} (hoff : ∀ y ≠ x, f' y = f y) (hx : f' x + a ≤ f x + b) :
    ∑ y, f' y + a ≤ ∑ y, f y + b := by
  have hsum : ∑ y ∈ Finset.univ.erase x, f' y = ∑ y ∈ Finset.univ.erase x, f y :=
    Finset.sum_congr rfl fun y hy => hoff y (Finset.ne_of_mem_erase hy)
  rw [← Finset.add_sum_erase _ f' (Finset.mem_univ x),
    ← Finset.add_sum_erase _ f (Finset.mem_univ x), hsum]
  omega

/-! ## One section -/

section Sections

variable {comm : Comm M} {frag : RecvFrag M} {rank r : Nat} {s : Locked M}

theorem Entered.sequencing_of_ne (h : Entered comm frag s) (hr : r ≠ frag.hdrSrc) :
    (s.comm.procs r).sequencing = (comm.procs r).sequencing := by
  cases h with
  | queued =>
      rw [appendCantMatch, setProc_sequencing, if_neg hr]
  | overtakes => rw [matchOne_sequencing]
  | inTurn => rw [matchThisFrag_sequencing_eq, if_neg hr]

theorem Entered.ring_length (h : Entered comm frag s) :
    2 * (frags (s.comm.procs frag.hdrSrc).sequencing.cantMatch).length +
        (if s.again then 1 else 0) ≤
      2 * (frags (comm.procs frag.hdrSrc).sequencing.cantMatch).length + 2 := by
  cases h with
  | queued =>
      have hperm := appendFragToOrderedList_perm
        (comm.procs frag.hdrSrc).fragsCantMatch frag
        (comm.procs frag.hdrSrc).expectedSequence
      have hlen := hperm.length_eq
      simp only [appendCantMatch, Comm.setProc, update_self, CommProc.sequencing,
        Bool.false_eq_true, if_false]
      rw [List.length_cons] at hlen
      omega
  | overtakes =>
      rw [matchOne_sequencing]
      simp
  | inTurn =>
      rw [matchThisFrag_sequencing_eq, if_pos rfl]
      simp [CommProc.sequencing]

theorem Resumed.sequencing_of_ne (h : Resumed comm rank s) (hr : r ≠ rank) :
    (s.comm.procs r).sequencing = (comm.procs r).sequencing := by
  cases h with
  | nothing => rfl
  | next htake =>
      obtain ⟨⟨f, queue⟩, -, heq⟩ := Option.map_eq_some_iff.mp htake
      cases heq
      rw [matchThisFrag_sequencing_eq, if_neg hr, setProc_sequencing, if_neg hr]

theorem Resumed.ring_length (h : Resumed comm rank s) :
    2 * (frags (s.comm.procs rank).sequencing.cantMatch).length +
        (if s.again then 1 else 0) ≤
      2 * (frags (comm.procs rank).sequencing.cantMatch).length := by
  cases h with
  | nothing => simp
  | next htake =>
      obtain ⟨⟨f, queue⟩, hcheck, heq⟩ := Option.map_eq_some_iff.mp htake
      cases heq
      have hlen := congrArg List.length (checkCantmatch_frags hcheck)
      rw [matchThisFrag_sequencing_eq, if_pos rfl]
      simp only [Comm.setProc, update_self, CommProc.sequencing, if_true]
      rw [List.length_cons] at hlen
      omega

end Sections

/-! ## The whole job -/

namespace Job

/-- What is left to be done for the fragments of `peer` that wait at `p`. -/
def backlog (job : Job P M) (G : Group P) (p peer : P) : Nat :=
  (if G.reaches peer p then
    2 * (frags ((job.comms p).procs (G.rank peer)).sequencing.cantMatch).length else 0) +
    job.checks p peer

def work [Fintype P] (job : Job P M) (G : Group P) : Nat :=
  3 * job.flying.length + ∑ x : P × P, job.backlog G x.1 x.2

variable {job job' : Job P M} {h : Histories P M}

omit [DecidableEq P] in
theorem backlog_congr {p peer : P} (hchecks : job'.checks p peer = job.checks p peer)
    (hcomm : G.reaches peer p → ((job'.comms p).procs (G.rank peer)).sequencing =
      ((job.comms p).procs (G.rank peer)).sequencing) :
    job'.backlog G p peer = job.backlog G p peer := by
  rw [backlog, backlog, hchecks]
  split
  · rename_i hlink
    rw [hcomm hlink]
  · rfl

theorem backlog_leave {p peer q q' : P} {waiting : Nat} {s : Locked (Nat × M)}
    (hlink : G.reaches peer p)
    (hs : ∀ rank ≠ G.rank peer, (s.comm.procs rank).sequencing =
      ((job.comms p).procs rank).sequencing)
    (hq : (q, q') ≠ (p, peer)) :
    (job.leave p peer waiting s).backlog G q q' = job.backlog G q q' := by
  by_cases hqp : q = p
  · subst hqp
    have hpeer : q' ≠ peer := fun heq => hq (heq ▸ rfl)
    refine backlog_congr ?_ fun hlink' => ?_
    · simp [leave, hpeer]
    · simp only [leave, set, update_self]
      exact hs _ fun heq => hpeer (G.rank_inj hlink' hlink heq)
  · refine backlog_congr ?_ fun _ => ?_
    · simp [leave, hqp]
    · simp [leave, set, hqp]

variable [Fintype P]

theorem work_leave {p peer : P} {waiting a b : Nat} {s : Locked (Nat × M)}
    (hlink : G.reaches peer p)
    (hs : ∀ rank ≠ G.rank peer, (s.comm.procs rank).sequencing =
      ((job.comms p).procs rank).sequencing)
    (hring : 2 * (frags (s.comm.procs (G.rank peer)).sequencing.cantMatch).length +
        (waiting + if s.again then 1 else 0) + a ≤
      2 * (frags ((job.comms p).procs (G.rank peer)).sequencing.cantMatch).length +
        job.checks p peer + b) :
    (job.leave p peer waiting s).work G + a ≤ job.work G + b := by
  have hsum : ∑ x : P × P, (job.leave p peer waiting s).backlog G x.1 x.2 + a ≤
      ∑ x : P × P, job.backlog G x.1 x.2 + b := by
    have hself : (job.leave p peer waiting s).backlog G p peer + a ≤
        job.backlog G p peer + b := by
      simpa [backlog, hlink, leave, set] using hring
    refine sum_add_le_of_eq_off (x := (p, peer)) ?_ hself
    rintro ⟨q, q'⟩ hq
    exact backlog_leave hlink hs hq
  rw [work, work, leave_flying]
  omega

theorem work_deliver (ho : Orderly G job h) {n : Nat}
    (hstep : job.step G (.deliver n) = some job') : job'.work G < job.work G := by
  cases step_moved hstep with
  | @deliver _ src dst frag s hflying hs =>
      obtain ⟨hlink, hsrc⟩ := ho.linked hflying
      have hring := hs.ring_length
      rw [hsrc] at hring
      obtain ⟨hn, -⟩ := List.getElem?_eq_some_iff.mp hflying
      have hlen : (job.flying.eraseIdx n).length + 1 = job.flying.length :=
        List.length_eraseIdx_add_one hn
      have hbase : ({ job with flying := job.flying.eraseIdx n }.work G) + 3 =
          job.work G := by
        have hsame : ∀ x : P × P,
            ({ job with flying := job.flying.eraseIdx n }.backlog G x.1 x.2) =
              job.backlog G x.1 x.2 := fun _ => rfl
        simp only [work, hsame]
        omega
      have hleave : ({ job with flying := job.flying.eraseIdx n }.leave dst src
          (job.checks dst src) s).work G + 0 ≤
            { job with flying := job.flying.eraseIdx n }.work G + 2 :=
        work_leave hlink (fun rank hrank => hs.sequencing_of_ne (hsrc ▸ hrank))
          (by simp only; omega)
      omega

theorem work_check (ho : Orderly G job h) {p peer : P}
    (hstep : job.step G (.check p peer) = some job') : job'.work G < job.work G := by
  cases step_moved hstep with
  | @check _ _ s hchecks hs =>
      have hlink := ho.checked p peer hchecks
      have hring := hs.ring_length
      have hleave : (job.leave p peer (job.checks p peer - 1) s).work G + 1 ≤
          job.work G + 0 :=
        work_leave hlink (fun rank hrank => hs.sequencing_of_ne hrank) (by omega)
      omega

end Job

/-! ## Runs -/

/-- What the process itself has left to do: to come back from a receive that is
matched, or to make a call. -/
def Phase.load {T : Type*} (log : List (Match (Nat × M))) : Phase P M T → Nat
  | .ready _ => 1
  | .receiving req _ => if log.any (fun m => m.req == req) then 2 else 0
  | _ => 0

namespace Exec

variable [Fintype P] {e e' : Exec P M E S} {g : State P M E S} {h : Histories P M}
  {contextId : UInt16} {noAnySource : Bool}

def work (e : Exec P M E S) (G : Group P) : Nat :=
  e.job.work G + ∑ p, (e.phase p).load (e.job.log p)

/-- What the network does not see lowers the work. -/
theorem Silent.work_lt (hs : Silent G e e') (ho : Orderly G e.job h) :
    e'.work G < e.work G := by
  cases hs with
  | @waits p s req req' k job hphase hjob hlog hnone =>
      have hjobwork : job.work G = e.job.work G := by
        cases Job.step_moved hjob with
        | @start _ _ r hr =>
            have hflying : (e.job.set p r.1 r.2).flying = e.job.flying := rfl
            simp only [Job.work, hflying]
            refine congrArg _ (Finset.sum_congr rfl fun x _ => backlog_congr rfl fun _ => ?_)
            by_cases hx : x.1 = p
            · simp only [Job.set, hx, update_self, hr]
              exact recvReqStart_sequencing _ _ _
            · simp [Job.set, hx]
      have hload : (∑ q, (update e.phase p (.receiving req k) q).load (job.log q)) + 1 ≤
          ∑ q, (e.phase q).load (e.job.log q) + 0 := by
        refine sum_add_le_of_eq_off (x := p) ?_ ?_
        · intro q hq
          rw [update_of_ne hq, hlog]
        · have hany : (job.log p).any (fun m => m.req == req) = false := by
            rw [hlog]
            simpa using hnone
          simp [hphase, Phase.load, hany]
      simp only [work]
      omega
  | @answered p s k m hphase hm =>
      have hload : (∑ q, (update e.phase p (.ready s) q).load (e.job.log q)) + 1 ≤
          ∑ q, (e.phase q).load (e.job.log q) + 0 := by
        refine sum_add_le_of_eq_off (x := p) ?_ ?_
        · intro q hq
          rw [update_of_ne hq]
        · have hany : (e.job.log p).any (fun m' => m'.req == m.req) = true :=
            List.any_eq_true.mpr ⟨m, hm, beq_self_eq_true _⟩
          simp [hphase, Phase.load, hany]
      simp only [work]
      omega
  | deliver hjob hlog =>
      have hlt := work_deliver ho hjob
      simp only [work, hlog]
      omega
  | check hjob hlog =>
      have hlt := work_check ho hjob
      simp only [work, hlog]
      omega

theorem stutters (hlinked : Linked prog G) :
    Stutters
      (fun e g => ∃ h, Driven G e h ∧ prog.Reachable Set.univ g ∧ Refines prog G e g)
      (Step prog G (Paced G)) (prog.Step Set.univ) (fun e => e.work G) := by
  rintro e g e' ⟨h, hd, hreach, hr⟩ ⟨mv, hpaced, hstep⟩
  obtain ⟨h', g', hd', hg, hr'⟩ := step_refines hlinked hreach hr hd hpaced hstep
  rcases hg with hg | ⟨rfl, hsilent⟩
  · exact ⟨g', ⟨h', hd', hreach.tail hg, hr'⟩, .inl hg⟩
  · exact ⟨g', ⟨h', hd', hreach, hr'⟩, .inr ⟨rfl, hsilent.work_lt hd.orderly⟩⟩

theorem Run.simulates (hlinked : Linked prog G)
    (hrun : Run prog G (Paced G) (init prog G contextId noAnySource) e) :
    ∃ h g, Driven G e h ∧ prog.Reachable Set.univ g ∧ Refines prog G e g := by
  have hinit := Driven.init prog G contextId noAnySource
  obtain ⟨g, ⟨h, hd, hreach, hr⟩, -⟩ :=
    (stutters hlinked).reaches ⟨_, hinit, .refl, .init ..⟩ hrun
  exact ⟨h, g, hd, hreach, hr⟩

theorem Run.step_paced (hlinked : Linked prog G)
    (hrun : Run prog G (Paced G) (init prog G contextId noAnySource) e) (hshort : e.Short)
    (hstep : Step prog G (fun _ _ => True) e e') : Step prog G (Paced G) e e' := by
  obtain ⟨mv, -, hstep⟩ := hstep
  have hc := Counted.run hrun (.init G contextId false noAnySource)
  obtain ⟨h, g, hd, -, -⟩ := hrun.simulates hlinked
  refine ⟨mv, fun a ha => ?_, hstep⟩
  exact Exec.paced_of_short hd.orderly hc hshort.sent (fun p _ _ => hshort.asked p) ha

theorem Run.paced_of_short (hlinked : Linked prog G)
    (hrun : Run prog G (fun _ _ => True) (init prog G contextId noAnySource) e)
    (hshort : e.Short) : Run prog G (Paced G) (init prog G contextId noAnySource) e := by
  induction hrun with
  | refl => exact .refl
  | tail _ hstep ih =>
      obtain ⟨mv, hok, hmove⟩ := hstep
      have hshort' := hshort.of_step hmove
      have hpaced := ih hshort'
      exact hpaced.tail (hpaced.step_paced hlinked hshort' ⟨mv, hok, hmove⟩)

/-- The engine implements the network: whatever the order in which fragments arrive
and threads handle them, a state of a program over the engine stands for one that
its network reaches, and a run stops only where one of the network does. -/
theorem implements_network (hlinked : Linked prog G)
    (hrun : Run prog G (fun _ _ => True) (init prog G contextId noAnySource) e)
    (hshort : e.Short) :
    ∃ g, prog.Reachable Set.univ g ∧ Refines prog G e g ∧
      (e.Terminal prog G → prog.Terminal Set.univ g) := by
  obtain ⟨h, g, hd, hreach, hr⟩ := (hrun.paced_of_short hlinked hshort).simulates hlinked
  exact ⟨g, hreach, hr, fun ht => hr.terminal_of_terminal ht hlinked hreach hd⟩

def ping : Program (Fin 2) Unit Empty fun _ => Bool where
  act p s :=
    if s then .halt
    else if p.val = 0 then .send receiver () true
    else .recv sender fun _ => true
  entry _ := false
  parent _ := none

/-- The message waits for the receive, and its sender for the acknowledgement. -/
def pinging : List (Move (Fin 2)) :=
  [.call sender false, .deliver 0, .check receiver sender, .call receiver true,
    .resume sender, .resume receiver]

theorem ping_linked : Linked ping pair :=
  fun _ _ _ _ _ => ⟨fun _ _ _ _ => rfl, fun _ _ _ => rfl⟩

def pinged (k : Nat) : Exec (Fin 2) Unit Empty fun _ => Bool :=
  (play ping pair (pinging.take k) (init ping pair 0 false)).getD (init ping pair 0 false)

theorem pinged_six :
    play ping pair pinging (init ping pair 0 false) = some (pinged 6) := by
  have hsome : (play ping pair pinging (init ping pair 0 false)).isSome := by
    decide +kernel
  obtain ⟨e, he⟩ := Option.isSome_iff_exists.mp hsome
  have htake : pinging.take 6 = pinging := rfl
  rw [pinged, htake, he, Option.getD_some]

theorem pinged_short : (pinged 6).Short where
  sent := by decide +kernel
  asked := by decide +kernel

theorem implements_network_ping : ∃ g, ping.Reachable Set.univ g ∧
    Refines ping pair (pinged 6) g ∧
      ((pinged 6).Terminal ping pair → ping.Terminal Set.univ g) :=
  implements_network ping_linked (run_of_play pinged_six) pinged_short

/-- Where every run of the network ends, every short run over the engine does. -/
theorem short_runs_end (hlinked : Linked prog G) {μ : (p : P) → S p → Nat}
    (hμ : prog.Decreasing μ) (run : Nat → Exec P M E S)
    (h0 : run 0 = init prog G contextId noAnySource) :
    ¬∀ k, (run k).Short ∧ Step prog G (fun _ _ => True) (run k) (run (k + 1)) := by
  intro hrun
  have hreach : ∀ k, Run prog G (fun _ _ => True) (init prog G contextId noAnySource)
      (run k) := by
    intro k
    induction k with
    | zero =>
        rw [h0]
        exact .refl
    | succ k ih => exact ih.tail (hrun k).2
  have hinit : ∃ h, Driven G (run 0) h ∧ prog.Reachable Set.univ prog.init ∧
      Refines prog G (run 0) prog.init := by
    rw [h0]
    exact ⟨_, Driven.init prog G contextId noAnySource, .refl, .init ..⟩
  refine (stutters hlinked).no_infinite_run (fun g g' => hμ.stepsLeft_lt) run hinit ?_
  intro k
  obtain ⟨hshort, hstep⟩ := hrun k
  have hpaced := (hreach k).paced_of_short hlinked hshort
  exact hpaced.step_paced hlinked hshort hstep

theorem ping_decreasing : ping.Decreasing fun _ s => if s then 0 else 1 := by
  intro p s s' h
  cases s with
  | true => cases h
  | false =>
      have hs' : s' = true := by
        simp only [ping, Bool.false_eq_true, if_false] at h
        split at h
        · exact h
        · obtain ⟨_, hs'⟩ := h
          exact hs'
      subst hs'
      exact Nat.one_pos

theorem short_runs_end_ping :
    ¬∀ k, (pinged k).Short ∧ Step ping pair (fun _ _ => True) (pinged k) (pinged (k + 1)) :=
  short_runs_end ping_linked ping_decreasing pinged rfl

end Exec

end ProgPara.Ob1
