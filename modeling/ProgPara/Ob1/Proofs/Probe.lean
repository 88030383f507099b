import ProgPara.Ob1.Proofs.Conservation

/-!
# Probes

What a probe finds is what the next receive from that source with that tag gets:
fragments that arrive meanwhile go behind those that are there.
-/

namespace ProgPara.Ob1

open Function

variable {M : Type*} {comm : Comm M} {req probe : RecvRequest} {frag : RecvFrag M}
  {rank : Nat}

/-! ## The queue of unexpected fragments -/

theorem setProc_unexpected {proc : CommProc M}
    (h : proc.unexpectedFrags = (comm.procs rank).unexpectedFrags) (r : Nat) :
    ((comm.setProc rank proc).procs r).unexpectedFrags = (comm.procs r).unexpectedFrags := by
  by_cases hr : r = rank
  · subst hr
    simpa only [Comm.setProc, update_self] using h
  · simp only [Comm.setProc, update_of_ne hr]

theorem prefix_setProc {proc : CommProc M}
    (h : proc.unexpectedFrags = (comm.procs rank).unexpectedFrags) (r : Nat) :
    (comm.procs r).unexpectedFrags <+: ((comm.setProc rank proc).procs r).unexpectedFrags :=
  ⟨[], by rw [List.append_nil, setProc_unexpected h]⟩

theorem matchOne_unexpected (comm : Comm M) (rank : Nat) (frag : RecvFrag M) (r : Nat) :
    (comm.procs r).unexpectedFrags <+:
      ((matchOne comm rank frag).1.procs r).unexpectedFrags := by
  fun_induction matchOne comm rank frag with
  | case1 comm =>
      by_cases hr : r = rank
      · subst hr
        simp only [Comm.appendUnexpected, Comm.setProc, update_self]
        exact List.prefix_append _ _
      · simp only [Comm.appendUnexpected, Comm.setProc, update_of_ne hr]
        exact List.prefix_refl _
  | case2 comm req wild specific _ comm' _ after done hrec ih =>
      have heq : (comm'.procs r).unexpectedFrags = (comm.procs r).unexpectedFrags := by
        refine (setProc_unexpected ?_ r).trans ?_
        · rfl
        · rfl
      rw [hrec, heq] at ih
      exact ih
  | case3 comm req wild specific _ comm' _ =>
      have heq : (comm'.procs r).unexpectedFrags = (comm.procs r).unexpectedFrags := by
        refine (setProc_unexpected ?_ r).trans ?_
        · rfl
        · rfl
      simp only [heq]
      exact List.prefix_refl _

theorem matchThisFrag_unexpected (comm : Comm M) (rank : Nat) (frag : RecvFrag M)
    (r : Nat) :
    (comm.procs r).unexpectedFrags <+:
      ((matchThisFrag comm rank frag).1.procs r).unexpectedFrags := by
  have heq : ((comm.setProc rank
      { comm.procs rank with
        expectedSequence := (comm.procs rank).expectedSequence + 1 }).procs r).unexpectedFrags =
      (comm.procs r).unexpectedFrags := by
    refine setProc_unexpected ?_ r
    rfl
  rw [← heq]
  exact matchOne_unexpected _ rank frag r

theorem Entered.unexpected {s : Locked M} (h : Entered comm frag s) (r : Nat) :
    (comm.procs r).unexpectedFrags <+: (s.comm.procs r).unexpectedFrags := by
  cases h with
  | queued =>
      have heq : ((appendCantMatch comm frag.hdrSrc frag).procs r).unexpectedFrags =
          (comm.procs r).unexpectedFrags := by
        refine setProc_unexpected ?_ r
        rfl
      simp only [heq]
      exact List.prefix_refl _
  | overtakes => exact matchOne_unexpected comm frag.hdrSrc frag r
  | inTurn => exact matchThisFrag_unexpected comm frag.hdrSrc frag r

theorem Resumed.unexpected {s : Locked M} (h : Resumed comm rank s) (r : Nat) :
    (comm.procs r).unexpectedFrags <+: (s.comm.procs r).unexpectedFrags := by
  cases h with
  | nothing => exact List.prefix_refl _
  | @next frag comm' htake =>
      have heq : (comm'.procs r).unexpectedFrags = (comm.procs r).unexpectedFrags := by
        obtain ⟨⟨f, queue⟩, -, htaken⟩ := Option.map_eq_some_iff.mp htake
        cases htaken
        refine setProc_unexpected ?_ r
        rfl
      rw [← heq]
      exact matchThisFrag_unexpected comm' rank frag r

/-! ## What a search finds -/

theorem RecvRequest.fits_congr {f g : RecvFrag M} (h : f.hdrTag = g.hdrTag) :
    req.fits f = req.fits g := by
  unfold RecvRequest.fits
  rw [h]

theorem RecvRequest.hdrTag_ne_anyTag (h : req.fits frag) : frag.hdrTag ≠ anyTag := by
  intro htag
  unfold RecvRequest.fits at h
  split at h
  · have hle : 0 ≤ frag.hdrTag := by simpa using h
    rw [htag] at hle
    exact absurd hle (by decide)
  · rename_i hne
    have heq : frag.hdrTag = req.reqTag := by simpa using h
    exact hne (heq.symm.trans htag)

theorem find_eq_of_probe {queue : List (RecvFrag M)}
    (hprobe : queue.find? probe.fits = some frag) (htag : req.reqTag = frag.hdrTag) :
    queue.find? req.fits = some frag := by
  rw [List.find?_eq_some_iff_append] at hprobe ⊢
  obtain ⟨hfits, before, after, hqueue, hbefore⟩ := hprobe
  have hne := RecvRequest.hdrTag_ne_anyTag hfits
  have hreq : ∀ f : RecvFrag M, req.fits f = (f.hdrTag == frag.hdrTag) := by
    intro f
    rw [RecvRequest.fits, if_neg (htag ▸ hne), htag]
  refine ⟨by simp [hreq], before, after, hqueue, fun f hf => ?_⟩
  have hnot := hbefore f hf
  rw [hreq]
  by_contra hsame
  have heq : f.hdrTag = frag.hdrTag := by simpa using hsame
  rw [RecvRequest.fits_congr heq, hfits] at hnot
  cases hnot

/-- What a search among the unexpected fragments finds is first in its queue. -/
theorem recvReqStart_probe (hprobe : ¬probe.takes)
    (hmatch : (recvReqStart comm probe).2 = [⟨assigned comm probe, frag⟩]) :
    (recvReqStart comm probe).1.procs = comm.procs ∧
      ∃ r, (comm.procs r).unexpectedFrags.find? probe.fits = some frag := by
  have hnot : probe.reqType = .iprobe ∨ probe.reqType = .probe := by
    simpa [RecvRequest.takes, or_iff_not_imp_left] using hprobe
  have htype : (assigned comm probe).reqType = .iprobe ∨
      (assigned comm probe).reqType = .probe := hnot
  rw [recvReqStart, recvReqMatch] at hmatch ⊢
  split at hmatch
  · split at hmatch
    · cases hmatch
    · cases hmatch
  · rename_i r found hsearch
    simp only [if_pos htype] at hmatch ⊢
    cases hmatch
    rw [noteProbed_procs]
    exact ⟨rfl, r, searchUnexpected_find hsearch⟩

theorem recvReqStart_named (hpeer : req.reqPeer = some rank)
    (hfound : (comm.procs rank).unexpectedFrags.find? req.fits = some frag) :
    (recvReqStart comm req).2 = [⟨assigned comm req, frag⟩] := by
  have hsearch : searchUnexpected { comm with recvSequence := comm.recvSequence + 1 }
      (assigned comm req) = some (rank, frag) := by
    have hpeer' : (assigned comm req).reqPeer = some rank := hpeer
    have hfound' : recvReqMatchSpecificProc (assigned comm req) (comm.procs rank) =
        some frag := hfound
    unfold searchUnexpected
    rw [hpeer']
    simp only [hfound', Option.map_some]
  rw [recvReqStart, recvReqMatch, hsearch]
  simp only
  split
  · rfl
  · rfl

/-! ## Runs -/

namespace Job

variable {P : Type*} [DecidableEq P] {G : Group P} {job job' job₁ job₂ job₃ : Job P M}
  {contextId : UInt16} {allowOvertake noAnySource : Bool} {p q : P}

theorem unexpected_of_proc {comm : Comm (Nat × M)} {r : Nat}
    (hcomms : job'.comms = update job.comms q comm)
    (h : p = q → ((job.comms q).procs r).unexpectedFrags <+:
      (comm.procs r).unexpectedFrags) :
    ((job.comms p).procs r).unexpectedFrags <+:
      ((job'.comms p).procs r).unexpectedFrags := by
  rw [hcomms]
  by_cases hp : p = q
  · subst hp
    rw [update_self]
    exact h rfl
  · exact ⟨[], by rw [List.append_nil, update_of_ne hp]⟩

theorem step_unexpected {a : Action P M} (h : job.step G a = some job')
    (hno : ∀ req, a ≠ .start p req) (r : Nat) :
    ((job.comms p).procs r).unexpectedFrags <+:
      ((job'.comms p).procs r).unexpectedFrags := by
  cases step_moved h with
  | @send src dst hdrType tag data sent hlink hsent =>
      refine unexpected_of_proc (q := src) rfl fun _ => ?_
      subst hsent
      unfold sendFrag
      simp only
      split
      · exact List.prefix_refl _
      · refine prefix_setProc ?_ r
        rfl
  | @deliver n src dst frag s hflying hs =>
      exact unexpected_of_proc (q := dst) rfl fun _ => hs.unexpected r
  | @check peer _ s hchecks hs =>
      exact unexpected_of_proc rfl fun _ => hs.unexpected r
  | @start q req _ hr =>
      exact unexpected_of_proc (q := q) rfl fun hq => absurd (hq ▸ rfl) (hno req)
  | @cancel q req =>
      refine unexpected_of_proc (q := q) rfl fun _ => ?_
      unfold recvRequestCancel
      split
      · exact List.prefix_refl _
      · refine prefix_setProc ?_ r
        rfl

theorem Run.unexpected (hrun : Run G (fun _ a => ∀ req, a ≠ .start p req) job job')
    (r : Nat) :
    ((job.comms p).procs r).unexpectedFrags <+:
      ((job'.comms p).procs r).unexpectedFrags := by
  induction hrun with
  | refl => exact List.prefix_refl _
  | tail _ hstep ih =>
      obtain ⟨a, hno, hstep⟩ := hstep
      exact ih.trans (step_unexpected hstep hno r)

/-- A receive for the source and the tag of the message that a probe found gets that
message, whatever arrives and is sent meanwhile, if no other request is started
there. -/
theorem probe_then_recv {ok : Job P M → Action P M → Prop}
    (hrun : Run G ok (init G contextId allowOvertake noAnySource) job)
    (hprobe : ¬probe.takes) (hfirst : job.step G (.start p probe) = some job₁)
    {frag : Fragment M}
    (hfound : job₁.log p = job.log p ++ [⟨assigned (job.comms p) probe, frag⟩])
    (hwhile : Run G (fun _ a => ∀ req, a ≠ .start p req) job₁ job₂)
    (hpeer : req.reqPeer = some frag.hdrSrc) (htag : req.reqTag = frag.hdrTag)
    (hlast : job₂.step G (.start p req) = some job₃) :
    job₃.log p = job₂.log p ++ [⟨assigned (job₂.comms p) req, frag⟩] := by
  have ha := hrun.accounted (.init G contextId allowOvertake noAnySource)
  obtain ⟨hcomms, hlog⟩ := start_moved hfirst
  obtain ⟨-, hlog'⟩ := start_moved hlast
  rw [hlog, List.append_cancel_left_eq] at hfound
  obtain ⟨hprocs, r, hr⟩ := recvReqStart_probe hprobe hfound
  have hsrc : frag.hdrSrc = r := by
    refine (ha.tidy p).source r frag (List.mem_append_right _ ?_)
    exact List.mem_of_find?_eq_some hr
  have hgrows := hwhile.unexpected r
  rw [hcomms, hprocs] at hgrows
  have hnext := hgrows.find?_eq_some (find_eq_of_probe hr htag)
  rw [hlog', recvReqStart_named (hpeer.trans (congrArg some hsrc)) hnext]

def arriving : List (Action (Fin 2) Unit) :=
  [.send sender receiver .match_ 7 (), .deliver 0, .check receiver sender]

def anyProbe : RecvRequest := ⟨.iprobe, none, anyTag, 0⟩

def namedRecv : RecvRequest := ⟨.recv, some 0, 7, 0⟩

def probedFrag : Fragment Unit := ⟨.match_, 0, 0, 7, 1, (0, ())⟩

/-- Another message with the same tag arrives between the probe and the receive. -/
theorem probe_then_recv_arriving : ∃ job₂ job₃ : Job (Fin 2) Unit,
    job₂.step pair (.start 1 namedRecv) = some job₃ ∧
      job₃.log 1 = job₂.log 1 ++ [⟨assigned (job₂.comms 1) namedRecv, probedFrag⟩] := by
  have hsome : ((exec pair (fun _ _ => True) (init pair 0 false false) arriving).bind fun job =>
      (job.step pair (.start 1 anyProbe)).bind fun job₁ =>
        (job₁.step pair (.send 0 1 .match_ 7 ())).bind fun job' =>
          (job'.step pair (.deliver 0)).bind fun job₂ =>
            (job₂.step pair (.start 1 namedRecv)).map fun _ =>
              decide (job₁.log 1 =
                job.log 1 ++ [⟨assigned (job.comms 1) anyProbe, probedFrag⟩])) =
      some true := by
    decide +kernel
  obtain ⟨job, hjob, hsome⟩ := Option.bind_eq_some_iff.mp hsome
  obtain ⟨job₁, hfirst, hsome⟩ := Option.bind_eq_some_iff.mp hsome
  obtain ⟨job', hsend, hsome⟩ := Option.bind_eq_some_iff.mp hsome
  obtain ⟨job₂, hdeliver, hsome⟩ := Option.bind_eq_some_iff.mp hsome
  obtain ⟨job₃, hlast, hsome⟩ := Option.map_eq_some_iff.mp hsome
  have hfound := of_decide_eq_true hsome
  have hwhile : Run pair (fun _ a => ∀ req, a ≠ .start 1 req) job₁ job₂ :=
    .tail (.single ⟨_, (fun _ heq => by cases heq), hsend⟩)
      ⟨_, (fun _ heq => by cases heq), hdeliver⟩
  exact ⟨job₂, job₃, hlast, probe_then_recv (run_of_exec hjob) (by decide) hfirst hfound
    hwhile rfl rfl hlast⟩

end Job

end ProgPara.Ob1
