import ProgPara.Ob1.Job

/-!
# What a locked section can do

One inductive for each section lists what it can leave, so that the proofs about
runs go through these cases and not through the code again.  `Comm.fixed` is the
part of a communicator that no fragment changes.
-/

namespace ProgPara.Ob1

open Function

variable {M : Type*} {comm : Comm M} {rank : Nat} {frag : RecvFrag M}

/-! ## What no fragment changes -/

namespace Comm

/-- What stays of a communicator when fragments arrive. -/
def fixed (comm : Comm M) : Comm M :=
  { comm with
    wildReceives := []
    procs := fun rank => { sendSequence := (comm.procs rank).sendSequence } }

/-- What stays the same when requests come and go too. -/
def settings (comm : Comm M) : Comm M :=
  { comm.fixed with recvSequence := 0, lastProbed := 0 }

theorem settings_of_fixed {comm' : Comm M} (h : comm'.fixed = comm.fixed) :
    comm'.settings = comm.settings := by
  rw [settings, settings, h]

theorem eq_of_fixed {α : Type*} (f : Comm M → α) (hf : ∀ c : Comm M, f c.fixed = f c)
    {comm' : Comm M} (h : comm'.fixed = comm.fixed) : f comm' = f comm := by
  rw [← hf comm', h, hf]

theorem fixed_setProc (comm : Comm M) {proc : CommProc M}
    (h : proc.sendSequence = (comm.procs rank).sendSequence) :
    (comm.setProc rank proc).fixed = comm.fixed := by
  have hprocs : (fun q => ({ sendSequence := (update comm.procs rank proc q).sendSequence } :
      CommProc M)) = fun q => { sendSequence := (comm.procs q).sendSequence } := by
    funext q
    by_cases hq : q = rank
    · subst hq
      rw [update_self, h]
    · rw [update_of_ne hq]
  simp only [fixed, setProc, hprocs]

end Comm

theorem matchOne_fixed (comm : Comm M) (rank : Nat) (frag : RecvFrag M) :
    (matchOne comm rank frag).1.fixed = comm.fixed := by
  fun_induction matchOne comm rank frag with
  | case1 comm => exact Comm.fixed_setProc comm rfl
  | case2 comm req wild specific _ comm' _ after done hrec ih =>
      rw [hrec] at ih
      exact ih.trans (Comm.fixed_setProc { comm with wildReceives := wild } rfl)
  | case3 comm req wild => exact Comm.fixed_setProc { comm with wildReceives := wild } rfl

theorem matchThisFrag_fixed (comm : Comm M) (rank : Nat) (frag : RecvFrag M) :
    (matchThisFrag comm rank frag).1.fixed = comm.fixed :=
  (matchOne_fixed _ rank frag).trans (Comm.fixed_setProc comm rfl)

theorem takeCantmatch_fixed {comm' : Comm M} (h : takeCantmatch comm rank = some (frag, comm')) :
    comm'.fixed = comm.fixed := by
  obtain ⟨⟨f, queue⟩, -, heq⟩ := Option.map_eq_some_iff.mp h
  cases heq
  exact Comm.fixed_setProc comm rfl

/-! ## What a section can do -/

inductive Entered (comm : Comm M) (frag : RecvFrag M) : Locked M → Prop
  | queued (hovertake : frag.hdrType = .match_ → comm.allowOvertake = false)
      (hseq : frag.hdrSeq ≠ (comm.procs frag.hdrSrc).expectedSequence) :
      Entered comm frag ⟨appendCantMatch comm frag.hdrSrc frag, [], false⟩
  | overtakes (htype : frag.hdrType = .match_) (hovertake : comm.allowOvertake = true) :
      Entered comm frag
        ⟨(matchOne comm frag.hdrSrc frag).1, (matchOne comm frag.hdrSrc frag).2, true⟩
  | inTurn (hseq : frag.hdrSeq = (comm.procs frag.hdrSrc).expectedSequence) :
      Entered comm frag
        ⟨(matchThisFrag comm frag.hdrSrc frag).1,
          (matchThisFrag comm frag.hdrSrc frag).2, true⟩

theorem recvFragEnter_entered (comm : Comm M) (frag : RecvFrag M) :
    Entered comm frag (recvFragEnter comm frag) := by
  simp only [recvFragEnter]
  split
  · rename_i h
    exact .queued (by simpa using h.1) h.2
  · rename_i h
    by_cases hover : frag.hdrType = .match_ ∧ comm.allowOvertake
    · rw [if_pos hover]
      exact .overtakes hover.1 hover.2
    · rw [if_neg hover]
      exact .inTurn (by_contra fun hseq => h ⟨hover, hseq⟩)

theorem Entered.fixed {s : Locked M} (h : Entered comm frag s) :
    s.comm.fixed = comm.fixed := by
  cases h with
  | queued => exact Comm.fixed_setProc comm rfl
  | overtakes => exact matchOne_fixed comm frag.hdrSrc frag
  | inTurn => exact matchThisFrag_fixed comm frag.hdrSrc frag

inductive Resumed (comm : Comm M) (rank : Nat) : Locked M → Prop
  | nothing (htake : takeCantmatch comm rank = none) : Resumed comm rank ⟨comm, [], false⟩
  | next {frag : RecvFrag M} {comm' : Comm M}
      (htake : takeCantmatch comm rank = some (frag, comm')) :
      Resumed comm rank
        ⟨(matchThisFrag comm' rank frag).1, (matchThisFrag comm' rank frag).2, true⟩

theorem recvFragCheck_resumed (comm : Comm M) (rank : Nat) :
    Resumed comm rank (recvFragCheck comm rank) := by
  unfold recvFragCheck
  split
  · exact .nothing ‹_›
  · exact .next ‹_›

theorem Resumed.fixed {s : Locked M} (h : Resumed comm rank s) :
    s.comm.fixed = comm.fixed := by
  cases h with
  | nothing => rfl
  | @next frag comm' htake =>
      exact (matchThisFrag_fixed comm' rank frag).trans (takeCantmatch_fixed htake)

/-- What a request that has its number finds, `comm'` being the communicator with
the last rank found noted. -/
inductive Looked (comm : Comm M) (req : RecvRequest) : Comm M × List (Match M) → Prop
  | leaves : Looked comm req (comm, [])
  | posts (hwaits : req.waits) : Looked comm req (appendRecvReqToQueue comm req, [])
  | looks {comm' : Comm M} (rank : Nat) {frag : RecvFrag M} (htakes : ¬req.takes)
      (hnoted : comm' = noteProbed comm req rank) : Looked comm req (comm', [⟨req, frag⟩])
  | takes {comm' : Comm M} (rank : Nat) {frag : RecvFrag M} (htakes : req.takes)
      (hnoted : comm' = noteProbed comm req rank)
      (hfound : (comm'.procs rank).unexpectedFrags.find? req.fits = some frag) :
      Looked comm req
        (comm'.setProc rank
          { comm'.procs rank with
            unexpectedFrags := (comm'.procs rank).unexpectedFrags.eraseP req.fits },
          [⟨req, frag⟩])

theorem searchUnexpected_find {req : RecvRequest}
    (h : searchUnexpected comm req = some (rank, frag)) :
    (comm.procs rank).unexpectedFrags.find? req.fits = some frag := by
  unfold searchUnexpected at h
  split at h
  · obtain ⟨i, -, hi⟩ := List.exists_of_findSome?_eq_some h
    obtain ⟨f, hf, heq⟩ := Option.map_eq_some_iff.mp hi
    cases heq
    exact hf
  · obtain ⟨f, hf, heq⟩ := Option.map_eq_some_iff.mp h
    cases heq
    exact hf

theorem noteProbed_procs (comm : Comm M) (req : RecvRequest) (rank : Nat) :
    (noteProbed comm req rank).procs = comm.procs := by
  unfold noteProbed
  split <;> rfl

theorem recvReqMatch_looked (comm : Comm M) (req : RecvRequest) :
    Looked comm req (recvReqMatch comm req) := by
  unfold recvReqMatch
  split
  · split
    · exact .leaves
    · rename_i h
      refine .posts ?_
      simpa [RecvRequest.waits] using h
  · rename_i rank frag hsearch
    simp only
    split
    · rename_i h
      refine .looks rank ?_ rfl
      simpa [RecvRequest.takes, or_iff_not_imp_left] using h
    · rename_i h
      refine .takes rank ?_ rfl ?_
      · simpa [RecvRequest.takes] using h
      · rw [noteProbed_procs]
        exact searchUnexpected_find hsearch

theorem noteProbed_fixed (comm : Comm M) (req : RecvRequest) (rank : Nat) :
    ∃ probed, (noteProbed comm req rank).fixed = { comm.fixed with lastProbed := probed } := by
  unfold noteProbed
  split
  · exact ⟨rank, rfl⟩
  · exact ⟨comm.lastProbed, rfl⟩

theorem appendRecvReqToQueue_fixed (comm : Comm M) (req : RecvRequest) :
    (appendRecvReqToQueue comm req).fixed = comm.fixed := by
  unfold appendRecvReqToQueue
  split
  · rfl
  · exact Comm.fixed_setProc comm rfl

theorem Looked.fixed {req : RecvRequest} {r : Comm M × List (Match M)}
    (h : Looked comm req r) :
    ∃ probed, r.1.fixed = { comm.fixed with lastProbed := probed } := by
  cases h with
  | leaves => exact ⟨comm.lastProbed, rfl⟩
  | posts => exact ⟨comm.lastProbed, appendRecvReqToQueue_fixed comm req⟩
  | looks rank _ hnoted => exact hnoted ▸ noteProbed_fixed comm req rank
  | @takes comm' rank _ _ hnoted =>
      obtain ⟨probed, hprobed⟩ := noteProbed_fixed comm req rank
      rw [← hnoted] at hprobed
      refine ⟨probed, (Comm.fixed_setProc comm' ?_).trans hprobed⟩
      rfl

theorem recvReqStart_fixed (comm : Comm M) (req : RecvRequest) :
    ∃ probed, (recvReqStart comm req).1.fixed =
      { comm.fixed with recvSequence := comm.recvSequence + 1, lastProbed := probed } :=
  (recvReqMatch_looked { comm with recvSequence := comm.recvSequence + 1 }
    (assigned comm req)).fixed

theorem recvRequestCancel_fixed (comm : Comm M) (req : RecvRequest) :
    (recvRequestCancel comm req).fixed = comm.fixed := by
  unfold recvRequestCancel
  split
  · rfl
  · exact Comm.fixed_setProc comm rfl

/-! ## The numbers of a peer -/

theorem setProc_sequencing (comm : Comm M) (rank r : Nat) (proc : CommProc M) :
    ((comm.setProc rank proc).procs r).sequencing =
      if r = rank then proc.sequencing else (comm.procs r).sequencing := by
  by_cases hr : r = rank
  · subst hr
    simp [Comm.setProc]
  · simp [Comm.setProc, hr]

theorem setProc_sequencing_eq {proc : CommProc M}
    (h : proc.sequencing = (comm.procs rank).sequencing) (r : Nat) :
    ((comm.setProc rank proc).procs r).sequencing = (comm.procs r).sequencing := by
  rw [setProc_sequencing]
  split
  · rename_i hr
    rw [hr, h]
  · rfl

theorem matchThisFrag_sequencing_eq (comm : Comm M) (rank : Nat) (frag : RecvFrag M)
    (r : Nat) : ((matchThisFrag comm rank frag).1.procs r).sequencing =
      if r = rank then
        ⟨(comm.procs rank).expectedSequence + 1, (comm.procs rank).fragsCantMatch⟩
      else (comm.procs r).sequencing := by
  rw [matchThisFrag, matchOne_sequencing, setProc_sequencing]
  rfl

theorem Looked.sequencing {req : RecvRequest} {r : Comm M × List (Match M)}
    (h : Looked comm req r) (p : Nat) :
    (r.1.procs p).sequencing = (comm.procs p).sequencing := by
  cases h with
  | leaves => rfl
  | posts =>
      unfold appendRecvReqToQueue
      split
      · rfl
      · refine setProc_sequencing_eq ?_ p
        rfl
  | looks rank _ hnoted => rw [hnoted, noteProbed_procs]
  | takes rank _ hnoted =>
      refine (setProc_sequencing_eq ?_ p).trans ?_
      · rfl
      · rw [hnoted, noteProbed_procs]

theorem recvReqStart_sequencing (comm : Comm M) (req : RecvRequest) (p : Nat) :
    ((recvReqStart comm req).1.procs p).sequencing = (comm.procs p).sequencing :=
  (recvReqMatch_looked { comm with recvSequence := comm.recvSequence + 1 }
    (assigned comm req)).sequencing p

theorem recvRequestCancel_sequencing (comm : Comm M) (req : RecvRequest) (p : Nat) :
    ((recvRequestCancel comm req).procs p).sequencing = (comm.procs p).sequencing := by
  unfold recvRequestCancel
  split
  · rfl
  · refine setProc_sequencing_eq ?_ p
    rfl

/-! ## What is sent -/

theorem sendFrag_frag (comm : Comm M) (dst : Nat) (hdrType : HdrType) (tag : Int)
    (data : M) :
    ∃ seq, (sendFrag comm dst hdrType tag data).2 =
      ⟨hdrType, comm.contextId, comm.myRank, tag, seq, data⟩ := by
  unfold sendFrag
  simp only
  split
  · exact ⟨_, rfl⟩
  · exact ⟨_, rfl⟩

theorem sendFrag_eq (comm : Comm M) (h : comm.allowOvertake = false) (dst : Nat)
    (hdrType : HdrType) (tag : Int) (data : M) :
    sendFrag comm dst hdrType tag data =
      (comm.setProc dst
        { comm.procs dst with sendSequence := (comm.procs dst).sendSequence + 1 },
        ⟨hdrType, comm.contextId, comm.myRank, tag,
          ((comm.procs dst).sendSequence + 1).toUInt16, data⟩) := by
  simp [sendFrag, h]

/-! ## What a step can do -/

namespace Job

variable {P : Type*} [DecidableEq P] {G : Group P} {job job' : Job P M} {a : Action P M}

inductive Moved (G : Group P) (job : Job P M) : Action P M → Job P M → Prop
  | send {src dst : P} {hdrType : HdrType} {tag : Int} {data : M}
      {sent : Comm (Nat × M) × Fragment M} (hreaches : G.reaches src dst)
      (hsent : sent = sendFrag (job.comms src) (G.rank dst) hdrType tag
        ((job.sent src dst).length, data)) :
      Moved G job (.send src dst hdrType tag data)
        ((job.set src sent.1 []).launch src dst sent.2)
  | deliver {n : Nat} {src dst : P} {frag : Fragment M} {s : Locked (Nat × M)}
      (hflying : job.flying[n]? = some ⟨src, dst, frag⟩)
      (hs : Entered (job.comms dst) frag s) :
      Moved G job (.deliver n)
        ({ job with flying := job.flying.eraseIdx n }.leave dst src (job.checks dst src) s)
  | check {p peer : P} {s : Locked (Nat × M)} (hchecks : job.checks p peer ≠ 0)
      (hs : Resumed (job.comms p) (G.rank peer) s) :
      Moved G job (.check p peer) (job.leave p peer (job.checks p peer - 1) s)
  | start {p : P} {req : RecvRequest} {r : Comm (Nat × M) × List (Match (Nat × M))}
      (hr : r = recvReqStart (job.comms p) req) :
      Moved G job (.start p req)
        { job.set p r.1 r.2 with
          asked := update job.asked p (job.asked p ++ [assigned (job.comms p) req]) }
  | cancel {p : P} {req : RecvRequest} :
      Moved G job (.cancel p req)
        { job.set p (recvRequestCancel (job.comms p) req) [] with
          cancelled := update job.cancelled p (job.cancelled p ++ [req]) }

theorem step_moved (h : job.step G a = some job') : Moved G job a job' := by
  cases a with
  | send src dst hdrType tag data =>
      simp only [step] at h
      split at h
      · rename_i hreaches
        cases h
        exact .send hreaches rfl
      · cases h
  | deliver n =>
      simp only [step] at h
      split at h
      · cases h
      · rename_i src dst frag hflying
        cases h
        exact .deliver hflying (recvFragEnter_entered _ frag)
  | check p peer =>
      simp only [step] at h
      split at h
      · cases h
      · rename_i hchecks
        cases h
        exact .check hchecks (recvFragCheck_resumed _ (G.rank peer))
  | start p req =>
      cases h
      exact .start rfl
  | cancel p req =>
      cases h
      exact .cancel

theorem start_moved {p : P} {req : RecvRequest} (h : job.step G (.start p req) = some job') :
    job'.comms p = (recvReqStart (job.comms p) req).1 ∧
      job'.log p = job.log p ++ (recvReqStart (job.comms p) req).2 := by
  cases step_moved h with
  | start hr =>
      subst hr
      exact ⟨update_self .., update_self ..⟩

@[simp] theorem leave_comms (job : Job P M) (p peer : P) (waiting : Nat)
    (s : Locked (Nat × M)) :
    (job.leave p peer waiting s).comms = update job.comms p s.comm := rfl

@[simp] theorem leave_flying (job : Job P M) (p peer : P) (waiting : Nat)
    (s : Locked (Nat × M)) : (job.leave p peer waiting s).flying = job.flying := rfl

@[simp] theorem set_comms (job : Job P M) (p : P) (comm : Comm (Nat × M))
    (done : List (Match (Nat × M))) :
    (job.set p comm done).comms = update job.comms p comm := rfl

@[simp] theorem set_flying (job : Job P M) (p : P) (comm : Comm (Nat × M))
    (done : List (Match (Nat × M))) : (job.set p comm done).flying = job.flying := rfl

theorem launch_sent_self (job : Job P M) (src dst : P) (frag : Fragment M) :
    (job.launch src dst frag).sent src dst = job.sent src dst ++ [frag] := by
  simp [launch]

theorem launch_sent_of_ne {src dst p q : P} (h : ¬(p = src ∧ q = dst)) (job : Job P M)
    (frag : Fragment M) : (job.launch src dst frag).sent p q = job.sent p q := by
  simp [launch, Network.modifyAt_of_ne h]

theorem launch_inFlight_self (job : Job P M) (src dst : P) (frag : Fragment M) :
    (job.launch src dst frag).inFlight src dst = job.inFlight src dst ++ [frag] := by
  simp [launch, inFlight]

theorem launch_inFlight_of_ne {src dst p q : P} (h : ¬(p = src ∧ q = dst)) (job : Job P M)
    (frag : Fragment M) : (job.launch src dst frag).inFlight p q = job.inFlight p q := by
  have hne : ¬(src = p ∧ dst = q) := fun h' => h ⟨h'.1.symm, h'.2.symm⟩
  simp [launch, inFlight, hne]

end Job

end ProgPara.Ob1
