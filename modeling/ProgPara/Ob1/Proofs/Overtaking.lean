import ProgPara.Ob1.Proofs.Conservation

/-!
# Messages that may overtake each other

Where it was asserted that messages may overtake each other, all of them are sent
with the number 0.  `mca_pml_ob1_recv_frag_callback_match` then matches a short one
without regard to its number.  `mca_pml_ob1_recv_frag_match` does not: it compares the
0 of a long one with the number expected, which is 1 and stays so.
-/

namespace ProgPara.Ob1

open Function

variable {M : Type*} {comm comm' : Comm M} {frag : RecvFrag M} {rank : Nat}

def ShortTaken (done : List (Match M)) : Prop :=
  ∀ p, ∀ f ∈ takenFrom p done, f.hdrType = .match_

theorem ShortTaken.nil : ShortTaken ([] : List (Match M)) :=
  fun _ _ hf => by cases hf

theorem ShortTaken.append {done done' : List (Match M)} (h : ShortTaken done)
    (h' : ShortTaken done') : ShortTaken (done ++ done') := by
  intro p f hf
  rw [takenFrom_append] at hf
  rcases List.mem_append.mp hf with hf | hf
  · exact h p f hf
  · exact h' p f hf

/-- The first number is still expected, and only short messages can be matched. -/
structure Loose (comm : Comm M) : Prop where
  overtake : comm.allowOvertake = true
  expected : ∀ p, (comm.procs p).sequencing.expected = 1
  queued : ∀ p, ∀ f ∈ frags (comm.procs p).sequencing.cantMatch, f.hdrSeq = 0
  unexpected : ∀ p, ∀ f ∈ (comm.procs p).unexpectedFrags, f.hdrType = .match_

namespace Loose

variable (hl : Loose comm)
include hl

theorem of_conserves {new : List (RecvFrag M)} {done : List (Match M)}
    (hc : Conserves comm new comm' done) (hover : comm'.allowOvertake = comm.allowOvertake)
    (hseq : ∀ p, (comm'.procs p).sequencing = (comm.procs p).sequencing)
    (hnew : ∀ f ∈ new, f.hdrType = .match_) : Loose comm' ∧ ShortTaken done := by
  have hshort : ∀ p, ∀ f ∈ (comm'.procs p).unexpectedFrags ++ takenFrom p done,
      f.hdrType = .match_ := by
    intro p f hf
    have hring : (comm'.procs p).fragsCantMatch = (comm.procs p).fragsCantMatch :=
      congrArg Sequencing.cantMatch (hseq p)
    have hkept := hc.kept p
    rw [CommProc.held, CommProc.held, hring, List.append_assoc, List.append_assoc,
      List.perm_append_left_iff] at hkept
    rcases List.mem_append.mp (hkept.subset hf) with hf | hf
    · exact hl.unexpected p f hf
    · exact hnew f (List.mem_filter.mp hf).1
  refine ⟨⟨hover.trans hl.overtake, fun p => ?_, fun p => ?_, fun p f hf => ?_⟩,
    fun p f hf => ?_⟩
  · rw [hseq]
    exact hl.expected p
  · rw [hseq]
    exact hl.queued p
  · exact hshort p f (List.mem_append_left _ hf)
  · exact hshort p f (List.mem_append_right _ hf)

theorem queue (hzero : frag.hdrSeq = 0) : Loose (appendCantMatch comm rank frag) where
  overtake := hl.overtake
  expected p := by
    rw [appendCantMatch, setProc_sequencing]
    split
    · exact hl.expected rank
    · exact hl.expected p
  queued p f hf := by
    rw [appendCantMatch, setProc_sequencing] at hf
    split at hf
    · have hperm := appendFragToOrderedList_perm (comm.procs rank).fragsCantMatch frag
        (comm.procs rank).expectedSequence
      rcases List.mem_cons.mp (hperm.subset hf) with rfl | hf
      · exact hzero
      · exact hl.queued rank f hf
    · exact hl.queued p f hf
  unexpected p f hf := by
    by_cases hp : p = rank
    · subst hp
      simp only [appendCantMatch, Comm.setProc, update_self] at hf
      exact hl.unexpected p f hf
    · simp only [appendCantMatch, Comm.setProc, update_of_ne hp] at hf
      exact hl.unexpected p f hf

theorem entered {s : Locked M} (h : Entered comm frag s) (ht : Tidy comm)
    (hzero : frag.hdrSeq = 0) : Loose s.comm ∧ ShortTaken s.matches_ := by
  have hexpected : (comm.procs frag.hdrSrc).expectedSequence = 1 :=
    hl.expected frag.hdrSrc
  have hconserves := h.conserves ht.waits
  have hfixed := h.fixed
  cases h with
  | queued => exact ⟨hl.queue hzero, .nil⟩
  | overtakes htype =>
      refine hl.of_conserves hconserves ?_ ?_ ?_
      · exact Comm.eq_of_fixed Comm.allowOvertake (fun _ => rfl) hfixed
      · exact matchOne_sequencing comm frag.hdrSrc frag
      · intro f hf
        rw [List.mem_singleton.mp hf]
        exact htype
  | inTurn hseq =>
      rw [hzero, hexpected] at hseq
      exact absurd hseq (by decide)

/-- What waits in a ring stays there. -/
theorem resumed {s : Locked M} (h : Resumed comm rank s) :
    Loose s.comm ∧ ShortTaken s.matches_ := by
  cases h with
  | nothing => exact ⟨hl, .nil⟩
  | next htake =>
      exfalso
      obtain ⟨⟨f, queue⟩, hcheck, -⟩ := Option.map_eq_some_iff.mp htake
      have hfrags := checkCantmatch_frags hcheck
      have hexpected : (comm.procs rank).expectedSequence = 1 := hl.expected rank
      have hzero : f.hdrSeq = 0 := by
        refine hl.queued rank f ?_
        change f ∈ frags (comm.procs rank).fragsCantMatch
        rw [hfrags]
        exact List.mem_cons_self
      have hnone := checkCantmatch_eq_none hfrags (s := 1) (by rw [hzero]; decide)
      rw [hexpected, hnone] at hcheck
      cases hcheck

theorem start (ht : Tidy comm) (req : RecvRequest) :
    Loose (recvReqStart comm req).1 ∧ ShortTaken (recvReqStart comm req).2 := by
  refine hl.of_conserves (recvReqStart_conserves ht req) ?_ ?_ ?_
  · obtain ⟨probed, hfixed⟩ := recvReqStart_fixed comm req
    have hover := congrArg Comm.allowOvertake hfixed
    exact hover
  · exact recvReqStart_sequencing comm req
  · exact fun f hf => by cases hf

theorem cancel (req : RecvRequest) : Loose (recvRequestCancel comm req) := by
  refine (hl.of_conserves (recvRequestCancel_conserves comm req) ?_ ?_ ?_).1
  · exact Comm.eq_of_fixed Comm.allowOvertake (fun _ => rfl)
      (recvRequestCancel_fixed comm req)
  · exact recvRequestCancel_sequencing comm req
  · exact fun f hf => by cases hf

end Loose

namespace Job

variable {P : Type*} [DecidableEq P] {G : Group P} {job job' : Job P M}
  {contextId : UInt16} {noAnySource : Bool}

structure Overtaking (job : Job P M) : Prop where
  loose : ∀ p, Loose (job.comms p)
  flying : ∀ packet ∈ job.flying, packet.frag.hdrSeq = 0
  log : ∀ p, ShortTaken (job.log p)

namespace Overtaking

omit [DecidableEq P] in
theorem init (G : Group P) (contextId : UInt16) (noAnySource : Bool) :
    Overtaking (init G contextId true noAnySource : Job P M) where
  loose _ :=
    { overtake := rfl
      expected := fun _ => rfl
      queued := fun _ _ hf => by cases hf
      unexpected := fun _ _ hf => by cases hf }
  flying _ h := by cases h
  log _ := .nil

variable (ho : Overtaking job)
include ho

theorem of_proc {p : P} {comm : Comm (Nat × M)} {done : List (Match (Nat × M))}
    (h : Loose comm ∧ ShortTaken done) (hcomms : job'.comms = update job.comms p comm)
    (hlog : job'.log = update job.log p (job.log p ++ done))
    (hflying : job'.flying ⊆ job.flying) : Overtaking job' where
  loose q := by
    rw [hcomms]
    by_cases hq : q = p
    · subst hq
      rw [update_self]
      exact h.1
    · rw [update_of_ne hq]
      exact ho.loose q
  flying packet hpacket := ho.flying packet (hflying hpacket)
  log q := by
    rw [hlog]
    by_cases hq : q = p
    · subst hq
      rw [update_self]
      exact (ho.log q).append h.2
    · rw [update_of_ne hq]
      exact ho.log q

theorem step (ha : Accounted G job) {a : Action P M} (h : job.step G a = some job') :
    Overtaking job' := by
  cases step_moved h with
  | @send src dst hdrType tag data sent hlink hsent =>
      have hover := (ho.loose src).overtake
      simp only [sendFrag, hover, if_true] at hsent
      subst hsent
      have hproc : Overtaking (job.set src (job.comms src) []) :=
        ho.of_proc ⟨ho.loose src, .nil⟩ rfl rfl (List.Subset.refl _)
      refine ⟨hproc.loose, fun packet hpacket => ?_, hproc.log⟩
      rcases List.mem_append.mp hpacket with hpacket | hpacket
      · exact ho.flying packet hpacket
      · rw [List.mem_singleton.mp hpacket]
  | @deliver n src dst frag s hflying hs =>
      have hzero := ho.flying _ (List.mem_of_getElem? hflying)
      refine ho.of_proc ((ho.loose dst).entered hs (ha.tidy dst) hzero) rfl rfl ?_
      exact (List.eraseIdx_sublist job.flying n).subset
  | @check p peer s hchecks hs =>
      exact ho.of_proc ((ho.loose p).resumed hs) rfl rfl (List.Subset.refl _)
  | @start p req r hr =>
      subst hr
      exact ho.of_proc ((ho.loose p).start (ha.tidy p) req) rfl rfl (List.Subset.refl _)
  | @cancel p req =>
      exact ho.of_proc ⟨(ho.loose p).cancel req, .nil⟩ rfl rfl (List.Subset.refl _)

end Overtaking

theorem Run.overtaking {ok : Job P M → Action P M → Prop}
    (hrun : Run G ok (Job.init G contextId true noAnySource) job) : Overtaking job := by
  induction hrun with
  | refl => exact .init G contextId noAnySource
  | tail hrun hstep ih =>
      obtain ⟨a, -, hstep⟩ := hstep
      have ha := Run.accounted hrun (.init G contextId true noAnySource)
      exact ih.step ha hstep

/-- Where messages may overtake each other a message that goes by rendezvous is never
received: it is on its way, or in the ring of those that came too early. -/
theorem rendezvous_lost {ok : Job P M → Action P M → Prop}
    (hrun : Run G ok (Job.init G contextId true noAnySource) job) {src dst : P}
    {frag : Fragment M} (hfrag : frag ∈ job.sent src dst) (hlong : frag.hdrType ≠ .match_) :
    frag ∉ job.taken G src dst ∧
      (frag ∈ job.inFlight src dst ∨
        frag ∈ frags ((job.comms dst).procs (G.rank src)).fragsCantMatch) := by
  have ho := hrun.overtaking
  have ha := hrun.accounted (.init G contextId true noAnySource)
  have htaken : frag ∉ job.taken G src dst :=
    fun h => hlong (ho.log dst (G.rank src) frag h)
  refine ⟨htaken, ?_⟩
  have hlink := ha.linked src dst (List.ne_nil_of_mem hfrag)
  have hplace := (ha.conserved src dst hlink).subset hfrag
  rcases List.mem_append.mp hplace with hflying | hplace
  · exact .inl hflying
  · rcases List.mem_append.mp hplace with hheld | hplace
    · rcases List.mem_append.mp hheld with hring | hunexpected
      · exact .inr hring
      · exact absurd ((ho.loose dst).unexpected (G.rank src) frag hunexpected) hlong
    · exact absurd hplace htaken

def losing : List (Action (Fin 2) Unit) :=
  [.start receiver ⟨.recv, some 0, 5, 0⟩, .send sender receiver .rndv 5 (), .deliver 0]

theorem losing_isSome :
    (exec pair (fun _ _ => True) (Job.init pair 0 true false) losing).isSome := by
  decide +kernel

def lost : Job (Fin 2) Unit :=
  (exec pair (fun _ _ => True) (Job.init pair 0 true false) losing).get losing_isSome

def lostFrag : Fragment Unit := ⟨.rndv, 0, 0, 5, 0, (0, ())⟩

/-- Nothing is on its way any more, the receive still waits, and the message is not
received. -/
theorem rendezvous_lost_losing :
    lost.inFlight 0 1 = [] ∧ (lost.comms 1).Posted ⟨.recv, some 0, 5, 0⟩ ∧
      lostFrag ∉ lost.taken pair 0 1 := by
  have hrun := run_of_exec (Option.some_get losing_isSome).symm
  have hsent : lostFrag ∈ lost.sent 0 1 := by decide +kernel
  have hlost := rendezvous_lost hrun hsent (by decide)
  exact ⟨by decide +kernel, .inr ⟨0, by decide +kernel⟩, hlost.1⟩

end Job

end ProgPara.Ob1
