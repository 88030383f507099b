import ProgPara.Ob1.Proofs.Refinement

/-!
# Runs over the matching engine

A run over the engine is a run of the network, and it stops only where the network
does: a message that is not taken is not one that a waiting receive accepts.
-/

namespace ProgPara.Ob1

open Function Relation Network Job

variable {P M E : Type*} {S : P → Type*} [DecidableEq P] {prog : Program P M E S}
  {G : Group P} {contextId : UInt16} {noAnySource : Bool} {e e' : Exec P M E S}
  {g : State P M E S} {h : Histories P M} {p : P}

theorem Driven.init (prog : Program P M E S) (G : Group P) (contextId : UInt16)
    (noAnySource : Bool) :
    Driven G (Exec.init prog G contextId noAnySource : Exec P M E S)
      fun _ => Matching.History.init where
  orderly := .init G contextId noAnySource
  tags _ _ _ hfrag := by cases hfrag
  asked _ _ hreq := by cases hreq
  cancelled _ := rfl
  answered _ _ hreq := by cases hreq
  inside p req k hk := by
    simp only [Exec.init] at hk
    split at hk
    · cases hk
    · cases hk

omit [DecidableEq P] in
theorem Refines.init (prog : Program P M E S) (G : Group P) (contextId : UInt16)
    (noAnySource : Bool) :
    Refines prog G (Exec.init prog G contextId noAnySource) prog.init where
  aborted := rfl
  status p := by
    simp only [Exec.init, Program.init]
    split
    · exact .ready _
    · exact .absent
  sent _ _ := rfl
  recd _ _ := rfl
  chan _ _ := rfl

theorem Exec.run_of_play {mvs : List (Move P)} (hplay : Exec.play prog G mvs e = some e') :
    Exec.Run prog G (fun _ _ => True) e e' := by
  induction mvs generalizing e with
  | nil =>
      cases hplay
      exact .refl
  | cons mv mvs ih =>
      obtain ⟨next, hstep, hrest⟩ := Option.bind_eq_some_iff.mp hplay
      exact .head ⟨mv, fun _ _ => trivial, hstep⟩ (ih hrest)

/-! ## What was received -/

theorem Refines.recd_eq (hr : Refines prog G e g) (hd : Driven G e h) {q : P}
    (hlink : G.reaches q p) : g.config.recd q p = data (e.job.taken G q p) := by
  have hinitial := List.prefix_iff_eq_take.mp (hd.taken_initial hlink)
  rw [hr.recd, ← hinitial]

theorem Driven.mem_taken (hd : Driven G e h) {m : Match (Nat × M)} (hm : m ∈ e.job.log p) :
    ∃ src, G.reaches src p ∧ G.rank src = m.frag.hdrSrc ∧ m.frag ∈ e.job.taken G src p := by
  obtain ⟨-, -, src, hlink, hsrc, -⟩ := hd.orderly.mem_log hm
  refine ⟨src, hlink, hsrc, ?_⟩
  rw [taken, takenFrom]
  apply List.mem_map_of_mem
  rw [List.mem_filter]
  simp [hm, hd.takes hm, hsrc]

/-! ## Short runs -/

def Counted (job : Job P M) : Prop :=
  ∀ p, (job.comms p).recvSequence = UInt32.ofNat (job.asked p).length

theorem Counted.step {job job' : Job P M} {a : Ob1.Action P M} (hc : Counted job)
    (hstep : job.step G a = some job') : Counted job' := by
  intro q
  have hq := hc q
  cases Job.step_moved hstep with
  | @send src dst _ _ _ sent hlink hsent =>
      by_cases hqs : q = src
      · subst hqs
        simp only [launch, set_comms, update_self]
        rw [hsent, sendFrag_read Comm.recvSequence fun _ _ _ => rfl]
        exact hq
      · simpa [launch, Job.set, hqs] using hq
  | @deliver n src dst frag s hflying hs =>
      by_cases hqd : q = dst
      · subst hqd
        simp only [leave_comms, update_self]
        rw [Comm.eq_of_fixed Comm.recvSequence (fun _ => rfl) hs.fixed]
        exact hq
      · simpa [leave, Job.set, hqd] using hq
  | @check p peer s hchecks hs =>
      by_cases hqp : q = p
      · subst hqp
        simp only [leave_comms, update_self]
        rw [Comm.eq_of_fixed Comm.recvSequence (fun _ => rfl) hs.fixed]
        exact hq
      · simpa [leave, Job.set, hqp] using hq
  | @start p req r hr =>
      by_cases hqp : q = p
      · subst hqp
        obtain ⟨probed, hfixed⟩ := recvReqStart_fixed (job.comms q) req
        have hsequence := congrArg Comm.recvSequence hfixed
        simp only [set_comms, update_self, List.length_append, List.length_singleton, hr]
        refine hsequence.trans ?_
        rw [UInt32.ofNat_add, ← hq]
        rfl
      · simpa [Job.set, hqp] using hq
  | @cancel p req =>
      by_cases hqp : q = p
      · subst hqp
        simp only [set_comms, update_self]
        rw [Comm.eq_of_fixed Comm.recvSequence (fun _ => rfl)
          (recvRequestCancel_fixed (job.comms q) req)]
        exact hq
      · simpa [Job.set, hqp] using hq

theorem Exec.Moved.job {mv : Move P} (hmoved : Exec.Moved prog G e mv e') :
    e'.job = e.job ∨ ∃ a, e.job.step G a = some e'.job := by
  cases hmoved with
  | abort => exact .inl rfl
  | tau => exact .inl rfl
  | spawn => exact .inl rfl
  | send _ _ hjob => exact .inr ⟨_, hjob⟩
  | recv _ _ hjob => exact .inr ⟨_, hjob⟩
  | acknowledged => exact .inl rfl
  | answered => exact .inl rfl
  | deliver hjob => exact .inr ⟨_, hjob⟩
  | check hjob => exact .inr ⟨_, hjob⟩

theorem Counted.move {mv : Move P} (hc : Counted e.job)
    (hstep : e.step prog G mv = some e') : Counted e'.job := by
  obtain ⟨-, hmoved⟩ := Exec.step_moved hstep
  rcases hmoved.job with heq | ⟨a, ha⟩
  · rw [heq]
    exact hc
  · exact hc.step ha

theorem Counted.run {ok : Job P M → Ob1.Action P M → Prop}
    (hrun : Exec.Run prog G ok e e') (hc : Counted e.job) : Counted e'.job := by
  induction hrun with
  | refl => exact hc
  | tail _ hstep ih =>
      obtain ⟨mv, -, hstep⟩ := hstep
      exact ih.move hstep

omit [DecidableEq P] in
theorem Counted.init (G : Group P) (contextId : UInt16)
    (allowOvertake noAnySource : Bool) :
    Counted (Job.init G contextId allowOvertake noAnySource : Job P M) :=
  fun _ => rfl

/-- Where a channel carried fewer than `2 ^ 16` messages and a process that is to
make a call made few requests, every move is paced. -/
theorem Exec.paced_of_short (ho : Orderly G e.job h) (hc : Counted e.job)
    (hsent : ∀ src dst, (e.job.sent src dst).length ≤ 65535)
    (hasked : ∀ p s, e.phase p = .ready s → (e.job.asked p).length + 1 < 2 ^ 32)
    {mv : Move P} {a : Ob1.Action P M} (ha : e.action prog G mv = some a) :
    Paced G e.job a := by
  refine ⟨?_, fun n packet _ hpacket => ho.inReach_of_short hsent hpacket⟩
  cases mv with
  | call p eager =>
      simp only [action] at ha
      split at ha
      · rename_i s hphase
        split at ha
        · cases ha
          exact (by decide : tag ≠ anyTag)
        · cases ha
          have hlt := hasked p s hphase
          constructor
          · rw [hc p, UInt32.toNat_ofNat_of_lt' (by simp only [UInt32.size]; omega)]
            exact hlt
          · intro _ hpeer
            cases hpeer
        · cases ha
      · cases ha
  | resume p => cases ha
  | deliver n =>
      cases ha
      trivial
  | check p peer =>
      cases ha
      trivial

theorem Job.step_asked_grows {job job' : Job P M} {a : Ob1.Action P M}
    (hstep : job.step G a = some job') (p : P) : job.asked p <+: job'.asked p := by
  cases Job.step_moved hstep with
  | @start q req r =>
      by_cases hpq : p = q
      · subst hpq
        simp only [update_self]
        exact List.prefix_append _ _
      · simp only [update_of_ne hpq]
        exact List.prefix_refl _
  | send => exact List.prefix_refl _
  | deliver => exact List.prefix_refl _
  | check => exact List.prefix_refl _
  | cancel => exact List.prefix_refl _

/-- Every channel carried fewer than `2 ^ 16` messages, and the requests of no
process wrapped their numbers around. -/
structure Exec.Short (e : Exec P M E S) : Prop where
  sent : ∀ src dst, (e.job.sent src dst).length ≤ 65535
  asked : ∀ p, (e.job.asked p).length + 1 < 2 ^ 32

theorem Exec.Short.of_step {mv : Move P} (hshort : e'.Short)
    (hstep : e.step prog G mv = some e') : e.Short := by
  obtain ⟨-, hmoved⟩ := Exec.step_moved hstep
  rcases hmoved.job with heq | ⟨a, ha⟩
  · constructor
    · rw [← heq]
      exact hshort.sent
    · rw [← heq]
      exact hshort.asked
  · constructor
    · intro src dst
      have hle := (Job.step_sent_grows ha src dst).length_le
      exact Nat.le_trans hle (hshort.sent src dst)
    · intro p
      have hle := (Job.step_asked_grows ha p).length_le
      have hlt := hshort.asked p
      omega

theorem Driven.log_length_le (hd : Driven G e h) {n : Nat}
    (hone : ∀ src, G.reaches src p → (e.job.sent src p).length ≤ 1)
    (hrank : ∀ m ∈ e.job.log p, m.frag.hdrSrc < n) : (e.job.log p).length ≤ n := by
  have hnodup : ((e.job.log p).map (·.frag.hdrSrc)).Nodup := by
    refine List.nodup_iff_count_le_one.mpr fun rank => ?_
    rw [List.count_eq_countP, List.countP_map, List.countP_eq_length_filter]
    by_cases hnone : (e.job.log p).filter ((· == rank) ∘ (·.frag.hdrSrc)) = []
    · rw [hnone]
      exact Nat.zero_le 1
    · obtain ⟨m, hm⟩ := List.exists_mem_of_ne_nil _ hnone
      obtain ⟨hm, hmrank⟩ := List.mem_filter.mp hm
      obtain ⟨-, -, src, hlink, hsrc, -⟩ := hd.orderly.mem_log hm
      have hrank : G.rank src = rank := hsrc.trans (by simpa using hmrank)
      have htaken : e.job.taken G src p =
          ((e.job.log p).filter ((· == rank) ∘ (·.frag.hdrSrc))).map (·.frag) := by
        rw [taken, takenFrom, hrank]
        refine congrArg _ (List.filter_congr fun m' hm' => ?_)
        simp [hd.takes hm']
      have hlen := congrArg List.length htaken
      rw [List.length_map] at hlen
      have hle := (hd.taken_initial hlink).length_le
      have hsent := hone src hlink
      omega
  have hsub : (e.job.log p).map (·.frag.hdrSrc) ⊆ List.range n := by
    intro rank hmem
    obtain ⟨m, hm, rfl⟩ := List.mem_map.mp hmem
    exact List.mem_range.mpr (hrank m hm)
  have hle := (hnodup.subperm hsub).length_le
  simpa using hle

theorem Driven.asked_length_le (hd : Driven G e h) {s : S p} (hphase : e.phase p = .ready s) :
    (e.job.asked p).length ≤ (e.job.log p).length := by
  have hr := hd.orderly.receiving p
  have hnodup : (e.job.asked p).Nodup := by
    rw [hr.asked_eq]
    exact hr.sound.asked_nodup
  have hsub : e.job.asked p ⊆ (e.job.log p).map (·.req) := by
    intro req hreq
    obtain ⟨m, hm, hmreq⟩ := hd.idle hphase req hreq
    exact hmreq ▸ List.mem_map_of_mem hm
  have hle := (hnodup.subperm hsub).length_le
  simpa using hle

/-! ## Where a run stops -/

section Terminal

variable (hr : Refines prog G e g) (ht : e.Terminal prog G) (haborted : e.aborted = none)

theorem Exec.step_eq (haborted : e.aborted = none) (mv : Move P) :
    e.step prog G mv = match mv with
      | .call p eager => e.call prog G p eager
      | .resume p => (e.finished G p).map fun s =>
          { e with phase := update e.phase p (.ready s) }
      | .deliver n => (e.job.step G (.deliver n)).map fun job => { e with job }
      | .check p peer => (e.job.step G (.check p peer)).map fun job => { e with job } := by
  unfold step
  split
  · rename_i heq
    rw [haborted] at heq
    cases heq
  · rfl

include ht haborted

theorem Exec.call_eq_none (p : P) (eager : Bool) : e.call prog G p eager = none :=
  (step_eq haborted (.call p eager)).symm.trans (ht (.call p eager))

theorem Exec.finished_eq_none (p : P) : e.finished G p = none := by
  have hmap := (step_eq haborted (.resume p)).symm.trans (ht (.resume p))
  exact Option.map_eq_none_iff.mp hmap

theorem Exec.quiet (src dst : P) :
    e.job.inFlight src dst = [] ∧ e.job.checks dst src = 0 := by
  constructor
  · have hmap := (step_eq haborted (.deliver 0)).symm.trans (ht (.deliver 0))
    have hstep : e.job.step G (.deliver 0) = none := Option.map_eq_none_iff.mp hmap
    have hflying : e.job.flying = [] := by
      cases hf : e.job.flying with
      | nil => rfl
      | cons packet rest => simp [Job.step, hf] at hstep
    rw [inFlight, hflying]
    rfl
  · have hmap := (step_eq haborted (.check dst src)).symm.trans (ht (.check dst src))
    have hstep : e.job.step G (.check dst src) = none := Option.map_eq_none_iff.mp hmap
    by_contra hchecks
    simp [Job.step, hchecks] at hstep

include hr

theorem Refines.ready_or_waits {s : S p} (hst : g.config.status p = .ready s) :
    e.phase p = .ready s ∨ ∃ q req k, e.phase p = .receiving req k ∧ G.reaches q p ∧
      prog.act p s = .recv q k ∧ req.reqPeer = some (G.rank q) ∧
      ∀ m ∈ e.job.log p, m.req ≠ req := by
  have hstands := hr.status p
  rw [hst] at hstands
  generalize hphase : e.phase p = ph at hstands
  cases hstands with
  | ready => exact .inl rfl
  | @waits q req s k hlink hact hpeer hnone =>
      exact .inr ⟨q, req, k, rfl, hlink, hact, hpeer, hnone⟩
  | @matched req k m hm hreq =>
      have hnone := Exec.finished_eq_none ht haborted p
      rw [Exec.finished, hphase] at hnone
      have hno := List.find?_eq_none.mp (Option.map_eq_none_iff.mp hnone) m hm
      simp [hreq] at hno

theorem Refines.phase_eq_ready_iff {s : S p} :
    e.phase p = .ready s ↔
      g.config.status p = .ready s ∧ ∀ q k, prog.act p s ≠ .recv q k := by
  constructor
  · intro hphase
    have hstands := hr.status p
    rw [hphase] at hstands
    generalize hst : g.config.status p = st at hstands
    cases hstands with
    | ready =>
        refine ⟨rfl, fun q k hact => ?_⟩
        have hnone := Exec.call_eq_none ht haborted p true
        rw [Exec.call, hphase] at hnone
        simp [hact, Job.step] at hnone
  · rintro ⟨hst, hact⟩
    rcases hr.ready_or_waits ht haborted hst with hphase | ⟨q, req, k, -, -, hrecv, -⟩
    · exact hphase
    · exact absurd hrecv (hact q k)

theorem Refines.chan_ne_nil (hd : Driven G e h) {q : P} {s : S p}
    (hst : g.config.status p = .blocked q s) : g.config.chan p q ≠ [] := by
  have hstands := hr.status p
  rw [hst] at hstands
  generalize hphase : e.phase p = ph at hstands
  cases hstands with
  | @sending q n s hlink hlast =>
      intro hchan
      have hinitial := hd.taken_initial hlink
      rw [hr.chan, data, List.map_eq_nil_iff, List.drop_eq_nil_iff, hlast] at hchan
      have hget : (e.job.taken G p q)[n] = (e.job.sent p q)[n] := hinitial.getElem hchan
      have hnumber := (hd.orderly.accounted.numbered p q n _
        (List.getElem?_eq_getElem (by omega))).1
      have hnone := Exec.finished_eq_none ht haborted p
      rw [Exec.finished, hphase] at hnone
      have hany : (e.job.taken G p q).any (fun frag => frag.segments.1 == n) = true := by
        rw [List.any_eq_true]
        refine ⟨(e.job.taken G p q)[n], List.getElem_mem hchan, ?_⟩
        rw [hget, hnumber]
        exact beq_self_eq_true n
      simp [hany] at hnone

theorem Refines.chan_eq_nil_of_waits (hd : Driven G e h) {q : P} {req : RecvRequest}
    {k : M → S p} (hphase : e.phase p = .receiving req k) (hlink : G.reaches q p)
    (hpeer : req.reqPeer = some (G.rank q)) (hnone : ∀ m ∈ e.job.log p, m.req ≠ req) :
    g.config.chan q p = [] := by
  have hreq := hd.inside p req k hphase
  obtain ⟨htype, htag⟩ := hd.asked p req hreq
  have hwaits : req.waits := by
    rw [RecvRequest.waits, htype]
    rfl
  have hcancelled : req ∉ e.job.cancelled p := by
    rw [hd.cancelled p]
    exact List.not_mem_nil
  have hposted : (e.job.comms p).Posted req := by
    rcases hd.orderly.answered hreq hwaits hcancelled with ⟨m, hm, hmreq⟩ | hposted
    · exact absurd hmreq (hnone m hm)
    · exact hposted
  obtain ⟨hflying, hchecks⟩ := Exec.quiet ht haborted q p
  rw [hr.chan, data, List.map_eq_nil_iff, List.eq_nil_iff_forall_not_mem]
  intro frag hfrag
  have hsent : frag ∈ e.job.sent q p := List.mem_of_mem_drop hfrag
  rcases hd.orderly.taken_or_refused hflying hchecks hsent with htaken | hrefused
  · -- what was taken is not among the rest of the channel
    obtain ⟨rest, hrest⟩ := hd.taken_initial hlink
    have hnodup := (hd.orderly.accounted.numbered q p).nodup
    rw [← hrest, List.drop_left] at hfrag
    rw [← hrest] at hnodup
    exact (List.nodup_append.mp hnodup).2.2 frag htaken frag hfrag rfl
  · refine hrefused req hposted ?_
    simp [RecvRequest.accepts, isWild, isSpecific, hpeer, RecvRequest.tagMatches, htag,
      hd.tags q p frag hsent]

/-- A process that the network has between two calls makes no call but a receive
from an empty channel. -/
theorem Refines.stuck (hlinked : Linked prog G) (hreach : prog.Reachable Set.univ g)
    (hd : Driven G e h) {s : S p} (hst : g.config.status p = .ready s) :
    prog.act p s = .halt ∨
      ∃ q k, prog.act p s = .recv q k ∧ g.config.chan q p = [] := by
  rcases hr.ready_or_waits ht haborted hst with
    hphase | ⟨q, req, k, hphase, hlink, hact, hpeer, hnone⟩
  · have hnone := Exec.call_eq_none ht haborted p true
    rw [Exec.call, hphase] at hnone
    cases hact : prog.act p s with
    | halt => exact .inl rfl
    | send q m s' =>
        have hlink := (hlinked g hreach p s hst).1 q m s' hact
        simp [hact, Job.step, hlink] at hnone
    | recv q k => simp [hact, Job.step] at hnone
    | _ => simp [hact] at hnone
  · refine .inr ⟨q, k, hact, ?_⟩
    exact hr.chan_eq_nil_of_waits ht haborted hd hphase hlink hpeer hnone

theorem Refines.terminal (hlinked : Linked prog G) (hreach : prog.Reachable Set.univ g)
    (hd : Driven G e h) : prog.Terminal Set.univ g := by
  intro g' hstep
  have hstuck : ∀ {p : P} {s : S p}, g.config.status p = .ready s → _ :=
    fun hst => hr.stuck ht haborted hlinked hreach hd hst
  obtain ⟨-, ⟨p, a, habort, -⟩ | ⟨b, -, p, ev, hoffers, -⟩⟩ := Program.step_cases hstep
  · obtain ⟨s, hst, hact⟩ := Program.aborts_eq_some_iff.mp habort
    rcases hstuck hst with hact' | ⟨q, k, hact', -⟩
    · cases hact.symm.trans hact'
    · cases hact.symm.trans hact'
  · cases hoffers with
    | release hst hchan => exact hr.chan_ne_nil ht haborted hd hst hchan
    | tau hst hact =>
        rcases hstuck hst with hact' | ⟨q, k, hact', -⟩
        · cases hact.symm.trans hact'
        · cases hact.symm.trans hact'
    | spawn hst hact =>
        rcases hstuck hst with hact' | ⟨q, k, hact', -⟩
        · cases hact.symm.trans hact'
        · cases hact.symm.trans hact'
    | send hst hact =>
        rcases hstuck hst with hact' | ⟨q, k, hact', -⟩
        · cases hact.symm.trans hact'
        · cases hact.symm.trans hact'
    | recv hst hact hchan =>
        rcases hstuck hst with hact' | ⟨q, k, hact', hnil⟩
        · cases hact.symm.trans hact'
        · cases hact.symm.trans hact'
          rw [hnil] at hchan
          cases hchan

end Terminal

/-- The engine stops only where the network does, be it that the job was stopped. -/
theorem Refines.terminal_of_terminal (hr : Refines prog G e g) (ht : e.Terminal prog G)
    (hlinked : Linked prog G) (hreach : prog.Reachable Set.univ g) (hd : Driven G e h) :
    prog.Terminal Set.univ g := by
  cases haborted : e.aborted with
  | none => exact hr.terminal ht haborted hlinked hreach hd
  | some pa =>
      intro g' hstep
      have hnone := (Program.step_cases hstep).1
      rw [hr.aborted, haborted] at hnone
      cases hnone

end ProgPara.Ob1
