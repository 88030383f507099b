import ProgPara.Ob1.Proofs.Conservation
import ProgPara.Ob1.Proofs.Matching

/-!
# Requests from any source

`recv_req_match_wild` looks at the peers in a ring, from the one behind the last it
found on.  A peer whose message fits comes nearer with each message that another
one gets matched, so it is passed over by each of the others once at most.
-/

namespace ProgPara.Ob1

open Function

variable {M : Type*} {comm : Comm M} {req : RecvRequest} {n l r x : Nat}

/-- How many of `n` ranks come before `r` in the ring that starts behind `l`. -/
def turn (n l r : Nat) : Nat := if l < r then r - (l + 1) else n - (l + 1) + r

theorem turn_lt (hl : l < n) (hr : r < n) : turn n l r < n := by
  unfold turn
  split
  · omega
  · omega

theorem turn_lt_turn (hl : l < n) (hx : x < n) (hr : r < n)
    (h : turn n l x < turn n l r) : turn n x r < turn n l r := by
  unfold turn at h ⊢
  split at h
  · split at h
    · split
      · omega
      · omega
    · split
      · omega
      · omega
  · split at h
    · split
      · omega
      · omega
    · split
      · omega
      · omega

theorem probeOrder_sorted (comm : Comm M) :
    (probeOrder comm).Pairwise fun p q =>
      turn comm.numProcs comm.lastProbed p < turn comm.numProcs comm.lastProbed q := by
  have hafter : (List.range' (comm.lastProbed + 1)
      (comm.numProcs - (comm.lastProbed + 1))).Pairwise (· < ·) := List.pairwise_lt_range'
  rw [probeOrder, List.pairwise_append]
  refine ⟨?_, ?_, ?_⟩
  · refine hafter.imp_of_mem ?_
    intro p q hp hq hlt
    rw [List.mem_range'_1] at hp hq
    unfold turn
    rw [if_pos (by omega), if_pos (by omega)]
    omega
  · refine List.pairwise_lt_range.imp_of_mem ?_
    intro p q hp hq hlt
    rw [List.mem_range] at hp hq
    unfold turn
    rw [if_neg (by omega), if_neg (by omega)]
    omega
  · intro p hp q hq
    rw [List.mem_range'_1] at hp
    rw [List.mem_range] at hq
    unfold turn
    rw [if_pos (by omega), if_neg (by omega)]
    omega

/-- A rank whose message fits is found, or one before it in the ring. -/
theorem recvReqMatchWild_turn (comm : Comm M) (hl : comm.lastProbed < comm.numProcs)
    (hr : r < comm.numProcs)
    (hfit : ∃ frag ∈ (comm.procs r).unexpectedFrags, req.fits frag) :
    ∃ x frag, recvReqMatchWild comm req = some (x, frag) ∧ x < comm.numProcs ∧
      frag ∈ (comm.procs x).unexpectedFrags ∧
      (x = r ∨ turn comm.numProcs comm.lastProbed x <
        turn comm.numProcs comm.lastProbed r) := by
  have hmem : r ∈ probeOrder comm := (mem_probeOrder hl).mpr hr
  have hfound : recvReqMatchSpecificProc req (comm.procs r) ≠ none := by
    obtain ⟨frag, hfrag, hfits⟩ := hfit
    intro hnone
    exact List.find?_eq_none.mp hnone frag hfrag hfits
  cases hsearch : recvReqMatchWild comm req with
  | none =>
      have hnone := List.findSome?_eq_none_iff.mp hsearch r hmem
      exact absurd (Option.map_eq_none_iff.mp hnone) hfound
  | some found =>
      obtain ⟨before, p, after, hsplit, hp, hbefore⟩ := List.findSome?_eq_some_iff.mp hsearch
      obtain ⟨frag, hfrag, rfl⟩ := Option.map_eq_some_iff.mp hp
      have hpn : p < comm.numProcs := by
        rw [← mem_probeOrder hl, hsplit]
        exact List.mem_append_right _ List.mem_cons_self
      refine ⟨p, frag, rfl, hpn, List.mem_of_find?_eq_some hfrag, ?_⟩
      have hsorted := probeOrder_sorted comm
      rw [hsplit] at hmem hsorted
      rcases List.mem_append.mp hmem with hmem | hmem
      · exact absurd (Option.map_eq_none_iff.mp (hbefore r hmem)) hfound
      · rcases List.mem_cons.mp hmem with rfl | hmem
        · exact .inl rfl
        · have hafter := (List.pairwise_append.mp hsorted).2.1
          exact .inr ((List.pairwise_cons.mp hafter).1 r hmem)

theorem recvReqMatch_lastProbed (comm : Comm M) (req : RecvRequest) :
    (recvReqMatch comm req).1.lastProbed =
      if req.reqPeer = none then
        ((searchUnexpected comm req).map (·.1)).getD comm.lastProbed
      else comm.lastProbed := by
  unfold recvReqMatch
  cases searchUnexpected comm req with
  | none =>
      have happend : (appendRecvReqToQueue comm req).lastProbed = comm.lastProbed :=
        Comm.eq_of_fixed Comm.lastProbed (fun _ => rfl) (appendRecvReqToQueue_fixed comm req)
      simp only [Option.map_none, Option.getD_none, ite_self]
      split
      · rfl
      · exact happend
  | some found =>
      have hnoted : (noteProbed comm req found.1).lastProbed =
          if req.reqPeer = none then found.1 else comm.lastProbed := by
        unfold noteProbed
        split
        · rfl
        · rfl
      simp only [Option.map_some, Option.getD_some]
      split
      · exact hnoted
      · exact hnoted

theorem recvReqStart_lastProbed_of_named (comm : Comm M) (hnamed : req.reqPeer ≠ none) :
    (recvReqStart comm req).1.lastProbed = comm.lastProbed := by
  have hpeer : (assigned comm req).reqPeer ≠ none := hnamed
  rw [recvReqStart, recvReqMatch_lastProbed, if_neg hpeer]

theorem recvReqStart_lastProbed_lt (hl : comm.lastProbed < comm.numProcs) :
    (recvReqStart comm req).1.lastProbed < comm.numProcs := by
  rw [recvReqStart, recvReqMatch_lastProbed]
  split
  · rename_i hwild
    unfold searchUnexpected
    rw [hwild]
    cases hfound : recvReqMatchWild { comm with recvSequence := comm.recvSequence + 1 }
      (assigned comm req) with
    | none => exact hl
    | some found =>
        obtain ⟨p, hp, heq⟩ := List.exists_of_findSome?_eq_some hfound
        obtain ⟨frag, -, rfl⟩ := Option.map_eq_some_iff.mp heq
        exact (mem_probeOrder hl).mp hp
  · exact hl

theorem recvReqStart_turn (hwild : req.reqPeer = none)
    (hl : comm.lastProbed < comm.numProcs) (hr : r < comm.numProcs)
    (hfit : ∃ frag ∈ (comm.procs r).unexpectedFrags, req.fits frag) :
    ∃ x, ∃ frag ∈ (comm.procs x).unexpectedFrags,
      (recvReqStart comm req).2 = [⟨assigned comm req, frag⟩] ∧
      (recvReqStart comm req).1.lastProbed = x ∧ x < comm.numProcs ∧
      (x = r ∨ turn comm.numProcs comm.lastProbed x <
        turn comm.numProcs comm.lastProbed r) := by
  have hfit' : ∃ frag ∈ (comm.procs r).unexpectedFrags, (assigned comm req).fits frag := hfit
  obtain ⟨x, frag, hsearch, hx, hfrag, hturn⟩ :=
    recvReqMatchWild_turn { comm with recvSequence := comm.recvSequence + 1 } hl hr hfit'
  have hpeer : (assigned comm req).reqPeer = none := hwild
  have hfound : searchUnexpected { comm with recvSequence := comm.recvSequence + 1 }
      (assigned comm req) = some (x, frag) := by
    unfold searchUnexpected
    rw [hpeer]
    exact hsearch
  refine ⟨x, frag, hfrag, ?_, ?_, hx, hturn⟩
  · rw [recvReqStart, recvReqMatch, hfound]
    simp only
    split
    · rfl
    · rfl
  · rw [recvReqStart, recvReqMatch_lastProbed, if_pos hpeer, hfound]
    rfl

/-! ## Runs -/

namespace Job

variable {P : Type*} [DecidableEq P] {G : Group P} {job job' : Job P M} {p src : P}
  {contextId : UInt16} {allowOvertake noAnySource : Bool}

theorem read_of_update {α : Type*} {q : P} {comm : Comm (Nat × M)}
    (f : Comm (Nat × M) → α) (hcomms : job'.comms = update job.comms q comm)
    (h : p = q → f comm = f (job.comms q)) : f (job'.comms p) = f (job.comms p) := by
  rw [hcomms]
  by_cases hp : p = q
  · subst hp
    rw [update_self, h rfl]
  · rw [update_of_ne hp]

theorem step_read {α : Type*} (f : Comm (Nat × M) → α) (hfixed : ∀ c, f c.fixed = f c)
    (hproc : ∀ comm rank proc, f (Comm.setProc comm rank proc) = f comm) {a : Action P M}
    (h : job.step G a = some job')
    (hstart : ∀ req, a = .start p req →
      f (recvReqStart (job.comms p) req).1 = f (job.comms p)) :
    f (job'.comms p) = f (job.comms p) := by
  cases step_moved h with
  | @send src dst hdrType tag data sent hlink hsent =>
      refine read_of_update f (q := src) rfl fun _ => ?_
      rw [hsent]
      exact sendFrag_read f hproc ..
  | @deliver n src dst frag s hflying hs =>
      exact read_of_update f (q := dst) rfl fun _ => Comm.eq_of_fixed f hfixed hs.fixed
  | check hchecks hs =>
      exact read_of_update f rfl fun _ => Comm.eq_of_fixed f hfixed hs.fixed
  | @start q req r hr =>
      refine read_of_update f (q := q) rfl fun hp => ?_
      subst hp hr
      exact hstart req rfl
  | @cancel q req =>
      refine read_of_update f (q := q) rfl fun _ => ?_
      exact Comm.eq_of_fixed f hfixed (recvRequestCancel_fixed (job.comms q) req)

theorem step_numProcs {a : Action P M} (h : job.step G a = some job') (p : P) :
    (job'.comms p).numProcs = (job.comms p).numProcs := by
  refine step_read Comm.numProcs (fun _ => rfl) (fun _ _ _ => rfl) h ?_
  intro req _
  obtain ⟨probed, hfixed⟩ := recvReqStart_fixed (job.comms p) req
  have hnumProcs := congrArg Comm.numProcs hfixed
  exact hnumProcs

/-- Sends, arrivals, cancels and requests that name a source leave the mark where it
is. -/
theorem step_lastProbed {a : Action P M} (h : job.step G a = some job')
    (hnamed : ∀ req, a = .start p req → req.reqPeer ≠ none) :
    (job'.comms p).lastProbed = (job.comms p).lastProbed := by
  refine step_read Comm.lastProbed (fun _ => rfl) (fun _ _ _ => rfl) h ?_
  intro req ha
  exact recvReqStart_lastProbed_of_named (job.comms p) (hnamed req ha)

structure Probing (G : Group P) (job : Job P M) : Prop where
  numProcs : ∀ p, (job.comms p).numProcs = G.size p
  lastProbed : ∀ p, (job.comms p).lastProbed < (job.comms p).numProcs

omit [DecidableEq P] in
theorem Probing.init (G : Group P) (contextId : UInt16) (allowOvertake noAnySource : Bool) :
    Probing G (init G contextId allowOvertake noAnySource : Job P M) where
  numProcs _ := rfl
  lastProbed p := G.size_pos p

theorem Probing.step (hp : Probing G job) {a : Action P M}
    (h : job.step G a = some job') : Probing G job' where
  numProcs p := (step_numProcs h p).trans (hp.numProcs p)
  lastProbed p := by
    rw [step_numProcs h p]
    by_cases hwild : ∃ req, a = .start p req
    · obtain ⟨req, rfl⟩ := hwild
      rw [(start_moved h).1]
      exact recvReqStart_lastProbed_lt (hp.lastProbed p)
    · rw [step_lastProbed h fun req ha => absurd ⟨req, ha⟩ hwild]
      exact hp.lastProbed p

theorem Run.probing {ok : Job P M → Action P M → Prop} (h : Run G ok job job')
    (hp : Probing G job) : Probing G job' :=
  h.keeps (fun _ _ _ hp hstep => hp.step hstep) hp

/-- A run from `job` on in which a message of `src` fits each request from any source
that `p` starts: these requests, and what they were matched with when they were
started. -/
inductive AnySource (G : Group P) (src p : P) (job : Job P M) :
    List RecvRequest → List (Match (Nat × M)) → Job P M → Prop
  | nil : AnySource G src p job [] [] job
  | other {reqs : List RecvRequest} {done : List (Match (Nat × M))} {job₁ job₂ : Job P M}
      {a : Action P M} (hbefore : AnySource G src p job reqs done job₁)
      (hnamed : ∀ req, a = .start p req → req.reqPeer ≠ none)
      (hstep : job₁.step G a = some job₂) : AnySource G src p job reqs done job₂
  | start {reqs : List RecvRequest} {done found : List (Match (Nat × M))}
      {job₁ job₂ : Job P M} {req : RecvRequest}
      (hbefore : AnySource G src p job reqs done job₁) (hwild : req.reqPeer = none)
      (hfit : ∃ frag ∈ ((job₁.comms p).procs (G.rank src)).unexpectedFrags, req.fits frag)
      (hstep : job₁.step G (.start p req) = some job₂)
      (hfound : job₂.log p = job₁.log p ++ found) :
      AnySource G src p job (reqs ++ [assigned (job₁.comms p) req]) (done ++ found) job₂

variable {reqs : List RecvRequest} {done : List (Match (Nat × M))}

theorem AnySource.run (h : AnySource G src p job reqs done job') :
    Run G (fun _ _ => True) job job' := by
  induction h with
  | nil => exact .refl
  | other _ _ hstep ih => exact ih.tail ⟨_, trivial, hstep⟩
  | start _ _ _ hstep _ ih => exact ih.tail ⟨_, trivial, hstep⟩

theorem start_turn (hp : Probing G job) (ha : Accounted G job) (hlink : G.reaches src p)
    {req : RecvRequest} (hwild : req.reqPeer = none)
    (hfit : ∃ frag ∈ ((job.comms p).procs (G.rank src)).unexpectedFrags, req.fits frag)
    (hstep : job.step G (.start p req) = some job') :
    ∃ frag, job'.log p = job.log p ++ [⟨assigned (job.comms p) req, frag⟩] ∧
      (frag.hdrSrc = G.rank src ∨
        turn (G.size p) (job'.comms p).lastProbed (G.rank src) <
          turn (G.size p) (job.comms p).lastProbed (G.rank src)) := by
  have hrank : G.rank src < (job.comms p).numProcs := by
    rw [hp.numProcs p]
    exact G.rank_lt hlink
  obtain ⟨x, frag, hfrag, hmatch, hmark, hx, hturn⟩ :=
    recvReqStart_turn hwild (hp.lastProbed p) hrank hfit
  obtain ⟨hcomms, hlog⟩ := start_moved hstep
  have hsrc : frag.hdrSrc = x :=
    (ha.tidy p).source x frag (List.mem_append_right _ hfrag)
  refine ⟨frag, by rw [hlog, hmatch], ?_⟩
  rcases hturn with rfl | hturn
  · exact .inl hsrc
  · rw [hcomms, hmark, ← hp.numProcs p]
    exact .inr (turn_lt_turn (hp.lastProbed p) hx hrank hturn)

theorem AnySource.closer (h : AnySource G src p job reqs done job') (hp : Probing G job)
    (ha : Accounted G job) (hlink : G.reaches src p) :
    (∃ m ∈ done, m.req ∈ reqs ∧ m.frag.hdrSrc = G.rank src) ∨
      turn (G.size p) (job'.comms p).lastProbed (G.rank src) + reqs.length ≤
        turn (G.size p) (job.comms p).lastProbed (G.rank src) := by
  induction h with
  | nil => exact .inr (Nat.le_refl _)
  | other _ hnamed hstep ih =>
      rw [step_lastProbed hstep hnamed]
      exact ih
  | @start reqs done found job₁ job₂ req hbefore hwild hfit hstep hfound ih =>
      obtain ⟨frag, hlog, hturn⟩ := start_turn (hbefore.run.probing hp)
        (hbefore.run.accounted ha) hlink hwild hfit hstep
      rw [hfound, List.append_cancel_left_eq] at hlog
      rcases ih with ⟨m, hm, hreq, hsrc⟩ | ih
      · exact .inl ⟨m, List.mem_append_left _ hm, List.mem_append_left _ hreq, hsrc⟩
      · rcases hturn with hsrc | hturn
        · refine .inl ⟨⟨assigned (job₁.comms p) req, frag⟩, ?_, ?_, hsrc⟩
          · rw [hlog]
            exact List.mem_append_right _ List.mem_cons_self
          · exact List.mem_append_right _ List.mem_cons_self
        · rw [List.length_append, List.length_singleton]
          exact .inr (by omega)

/-- If a message of `src` fits each of as many requests from any source as there are
peers, one of them is matched with a message of `src`, whatever happens between
them. -/
theorem no_starvation {ok : Job P M → Action P M → Prop}
    (hrun : Run G ok (init G contextId allowOvertake noAnySource) job)
    (hlink : G.reaches src p) (hany : AnySource G src p job reqs done job')
    (hlen : G.size p ≤ reqs.length) :
    ∃ m ∈ done, m.req ∈ reqs ∧ m.frag.hdrSrc = G.rank src := by
  have hp := hrun.probing (.init G contextId allowOvertake noAnySource)
  have ha := hrun.accounted (.init G contextId allowOvertake noAnySource)
  rcases hany.closer hp ha hlink with hfound | hcloser
  · exact hfound
  · have hmark := hp.lastProbed p
    rw [hp.numProcs p] at hmark
    have hlt := turn_lt hmark (G.rank_lt hlink)
    omega

def rivals : List (Action (Fin 2) Unit) :=
  [.send sender receiver .match_ 5 (), .send receiver receiver .match_ 5 (), .deliver 0,
    .deliver 0, .check receiver sender, .check receiver receiver]

def fromAny : RecvRequest := ⟨.recv, none, 5, 0⟩

theorem no_starvation_rivals : ∃ job job' : Job (Fin 2) Unit, ∃ reqs done,
    exec pair (fun _ _ => True) (init pair 0 false false) rivals = some job ∧
      AnySource pair 0 1 job reqs done job' ∧ reqs.length = 2 ∧
        ∃ m ∈ done, m.req ∈ reqs ∧ m.frag.hdrSrc = 0 := by
  have hsome : ((exec pair (fun _ _ => True) (init pair 0 false false) rivals).bind fun job =>
      (job.step pair (.start 1 fromAny)).bind fun job₁ =>
        (job₁.step pair (.send 1 1 .match_ 5 ())).bind fun job₂ =>
          (job₂.step pair (.deliver 0)).bind fun job₃ =>
            (job₃.step pair (.start 1 fromAny)).map fun _ =>
              decide ((∃ frag ∈ ((job.comms 1).procs 0).unexpectedFrags, fromAny.fits frag) ∧
                ∃ frag ∈ ((job₃.comms 1).procs 0).unexpectedFrags, fromAny.fits frag)) =
      some true := by
    decide +kernel
  obtain ⟨job, hjob, hsome⟩ := Option.bind_eq_some_iff.mp hsome
  obtain ⟨job₁, hfirst, hsome⟩ := Option.bind_eq_some_iff.mp hsome
  obtain ⟨job₂, hsend, hsome⟩ := Option.bind_eq_some_iff.mp hsome
  obtain ⟨job₃, hdeliver, hsome⟩ := Option.bind_eq_some_iff.mp hsome
  obtain ⟨job', hsecond, hsome⟩ := Option.map_eq_some_iff.mp hsome
  obtain ⟨hfit, hfit'⟩ := of_decide_eq_true hsome
  have hone : AnySource pair 0 1 job _ _ job₁ :=
    .start .nil rfl hfit hfirst (start_moved hfirst).2
  have hother := (hone.other (fun _ h => by cases h) hsend).other
    (fun _ h => by cases h) hdeliver
  have htwo := hother.start rfl hfit' hsecond (start_moved hsecond).2
  exact ⟨job, job', _, _, hjob, htwo, rfl,
    no_starvation (run_of_exec hjob) rfl htwo (Nat.le_refl 2)⟩

end Job

end ProgPara.Ob1
