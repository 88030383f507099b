import ProgPara.Ob1.Comm

/-!
# Matching fragments and requests

What a communicator does when a fragment arrives, when a receive or a probe is
started and when a request is cancelled.  Each function returns the state it
leaves and the matches it made, in order.

The code changes this state under the matching lock of the communicator.
Starting and cancelling a request hold it throughout.  A fragment that arrives
is matched under the lock, and the lock is released before its data moves and
taken again to look for the next fragment: `recvFragEnter` and `recvFragCheck`
are these two sections, of which the callbacks are the composition.
-/

namespace ProgPara.Ob1

variable {M : Type*}

theorem matchIncomming_perm {tag : Int} {wild specific w s : List RecvRequest}
    {m : RecvRequest} (h : matchIncomming tag wild specific = some (m, w, s)) :
    (m :: (w ++ s)).Perm (wild ++ specific) := by
  fun_induction matchIncomming tag wild specific generalizing w s with
  | case1 => cases h
  | case2 => cases h
  | case3 =>
      cases h
      exact .refl _
  | case4 specific req rest _ _ _ ih =>
      obtain ⟨⟨m', w', s'⟩, hrec, heq⟩ := Option.map_eq_some_iff.mp h
      cases heq
      exact (List.Perm.swap _ _ _).trans ((ih hrec).cons req)
  | case5 => cases h
  | case6 =>
      cases h
      exact List.perm_middle.symm
  | case7 wild req rest _ _ _ ih =>
      obtain ⟨⟨m', w', s'⟩, hrec, heq⟩ := Option.map_eq_some_iff.mp h
      cases heq
      calc (m :: (w ++ req :: s')).Perm (m :: req :: (w ++ s')) :=
            List.perm_middle.cons m
        _ |>.Perm (req :: m :: (w ++ s')) := .swap _ _ _
        _ |>.Perm (req :: (wild ++ rest)) := (ih hrec).cons req
        _ |>.Perm (wild ++ req :: rest) := List.perm_middle.symm

theorem matchIncommingNoAnySource_perm {tag : Int} {specific s : List RecvRequest}
    {m : RecvRequest} (h : matchIncommingNoAnySource tag specific = some (m, s)) :
    (m :: s).Perm specific := by
  induction specific generalizing s with
  | nil => cases h
  | cons req rest ih =>
      unfold matchIncommingNoAnySource at h
      split at h
      · cases h
        exact .refl _
      · obtain ⟨⟨m', s'⟩, hrec, heq⟩ := Option.map_eq_some_iff.mp h
        cases heq
        exact (List.Perm.swap _ _ _).trans ((ih hrec).cons req)

theorem searchPosted_perm {comm : Comm M} {rank : Nat} {frag : RecvFrag M}
    {m : RecvRequest} {w s : List RecvRequest}
    (h : searchPosted comm rank frag = some (m, w, s)) :
    (m :: (w ++ s)).Perm (comm.wildReceives ++ (comm.procs rank).specificReceives) := by
  unfold searchPosted at h
  split at h
  · obtain ⟨⟨m', s'⟩, hrec, heq⟩ := Option.map_eq_some_iff.mp h
    cases heq
    exact List.perm_middle.symm.trans
      ((matchIncommingNoAnySource_perm hrec).append_left _)
  · exact matchIncomming_perm h

/-- `match_one`.  A probe that matches is completed and the search goes on; any
other request takes the fragment.  Without one, the fragment is unexpected. -/
def matchOne (comm : Comm M) (rank : Nat) (frag : RecvFrag M) :
    Comm M × List (Match M) :=
  match _h : searchPosted comm rank frag with
  | none => (comm.appendUnexpected rank frag, [])
  | some (req, wild, specific) =>
      let comm' : Comm M :=
        { comm with wildReceives := wild }.setProc rank
          { comm.procs rank with specificReceives := specific }
      if req.reqType = .probe then
        let (after, done) := matchOne comm' rank frag
        (after, ⟨req, frag⟩ :: done)
      else (comm', [⟨req, frag⟩])
termination_by comm.wildReceives.length + (comm.procs rank).specificReceives.length
decreasing_by
  have hlen := (searchPosted_perm _h).length_eq
  simp only [Comm.setProc, Function.update_self, List.length_cons, List.length_append]
    at hlen ⊢
  omega

structure Sequencing (M : Type*) where
  expected : UInt16
  cantMatch : List (Run M)

def CommProc.sequencing (proc : CommProc M) : Sequencing M :=
  ⟨proc.expectedSequence, proc.fragsCantMatch⟩

theorem matchOne_sequencing (comm : Comm M) (rank : Nat) (frag : RecvFrag M) (r : Nat) :
    ((matchOne comm rank frag).1.procs r).sequencing = (comm.procs r).sequencing := by
  fun_induction matchOne comm rank frag with
  | case1 comm =>
      by_cases hr : r = rank
      · subst hr
        simp [Comm.appendUnexpected, Comm.setProc, CommProc.sequencing]
      · simp [Comm.appendUnexpected, Comm.setProc, hr]
  | case2 comm req wild specific _ comm' _ after done hrec ih =>
      rw [hrec] at ih
      rw [ih]
      by_cases hr : r = rank
      · subst hr
        simp [comm', Comm.setProc, CommProc.sequencing]
      · simp [comm', Comm.setProc, hr]
  | case3 comm req wild specific _ comm' _ =>
      by_cases hr : r = rank
      · subst hr
        simp [comm', Comm.setProc, CommProc.sequencing]
      · simp [comm', Comm.setProc, hr]

/-- `recv_frag_match_proc` from `match_this_frag` to where it releases the lock. -/
def matchThisFrag (comm : Comm M) (rank : Nat) (frag : RecvFrag M) :
    Comm M × List (Match M) :=
  let proc := comm.procs rank
  matchOne
    (comm.setProc rank { proc with expectedSequence := proc.expectedSequence + 1 })
    rank frag

def takeCantmatch (comm : Comm M) (rank : Nat) : Option (RecvFrag M × Comm M) :=
  let proc := comm.procs rank
  (checkCantmatchForMatch proc.expectedSequence proc.fragsCantMatch).map
    fun (frag, queue) => (frag, comm.setProc rank { proc with fragsCantMatch := queue })

theorem matchThisFrag_sequencing (comm : Comm M) (rank : Nat) (frag : RecvFrag M) :
    ((matchThisFrag comm rank frag).1.procs rank).sequencing =
      ⟨(comm.procs rank).expectedSequence + 1, (comm.procs rank).fragsCantMatch⟩ := by
  rw [matchThisFrag, matchOne_sequencing]
  simp [Comm.setProc, CommProc.sequencing]

theorem takeCantmatch_frags {comm comm' : Comm M} {rank : Nat} {frag : RecvFrag M}
    (h : takeCantmatch comm rank = some (frag, comm')) :
    frags (comm.procs rank).fragsCantMatch =
      frag :: frags (comm'.procs rank).fragsCantMatch := by
  obtain ⟨⟨f, queue⟩, hcheck, heq⟩ := Option.map_eq_some_iff.mp h
  cases heq
  rw [checkCantmatch_frags hcheck]
  simp [Comm.setProc]

/-- `mca_pml_ob1_recv_frag_match_proc`: the fragment expected is matched, then
those that waited for it, as long as the next one is there. -/
def recvFragMatchProc (comm : Comm M) (rank : Nat) (frag : RecvFrag M) :
    Comm M × List (Match M) :=
  let matched := matchThisFrag comm rank frag
  match _h : takeCantmatch matched.1 rank with
  | none => matched
  | some (next, comm') =>
      let rest := recvFragMatchProc comm' rank next
      (rest.1, matched.2 ++ rest.2)
termination_by (frags (comm.procs rank).fragsCantMatch).length
decreasing_by
  have hlen := congrArg List.length (takeCantmatch_frags _h)
  have hkept := congrArg Sequencing.cantMatch (matchThisFrag_sequencing comm rank frag)
  simp only [CommProc.sequencing] at hkept
  rw [hkept, List.length_cons] at hlen
  omega

/-! ## Fragments that arrive -/

def appendCantMatch (comm : Comm M) (rank : Nat) (frag : RecvFrag M) : Comm M :=
  let proc := comm.procs rank
  comm.setProc rank
    { proc with
      fragsCantMatch :=
        appendFragToOrderedList proc.fragsCantMatch frag proc.expectedSequence }

/-- `mca_pml_ob1_recv_frag_callback_match`, for the fragments of short
messages, on the communicator they name. -/
def recvFragCallbackMatch (comm : Comm M) (frag : RecvFrag M) :
    Comm M × List (Match M) :=
  let rank := frag.hdrSrc
  if comm.allowOvertake = false ∧
      frag.hdrSeq ≠ (comm.procs rank).expectedSequence then
    (appendCantMatch comm rank frag, [])
  else
    let matched :=
      if comm.allowOvertake then matchOne comm rank frag
      else matchThisFrag comm rank frag
    match takeCantmatch matched.1 rank with
    | none => matched
    | some (next, comm') =>
        let rest := recvFragMatchProc comm' rank next
        (rest.1, matched.2 ++ rest.2)

def recvFragMatch (comm : Comm M) (frag : RecvFrag M) : Comm M × List (Match M) :=
  let rank := frag.hdrSrc
  if frag.hdrSeq ≠ (comm.procs rank).expectedSequence then
    (appendCantMatch comm rank frag, [])
  else recvFragMatchProc comm rank frag

def recvFragCallback (comm : Comm M) (frag : RecvFrag M) : Comm M × List (Match M) :=
  match frag.hdrType with
  | .match_ => recvFragCallbackMatch comm frag
  | .rndv => recvFragMatch comm frag
  | .rget => recvFragMatch comm frag

/-! ### Locked sections -/

/-- What a locked section leaves, and whether its thread comes back to look for
the next fragment. -/
structure Locked (M : Type*) where
  comm : Comm M
  matches_ : List (Match M)
  again : Bool

/-- The section a callback enters with the fragment that arrives. -/
def recvFragEnter (comm : Comm M) (frag : RecvFrag M) : Locked M :=
  let rank := frag.hdrSrc
  let overtakes := frag.hdrType = .match_ ∧ comm.allowOvertake
  if ¬overtakes ∧ frag.hdrSeq ≠ (comm.procs rank).expectedSequence then
    ⟨appendCantMatch comm rank frag, [], false⟩
  else
    let matched :=
      if overtakes then matchOne comm rank frag else matchThisFrag comm rank frag
    ⟨matched.1, matched.2, true⟩

/-- The section in which a thread that has matched a fragment of `rank` looks for
the next one. -/
def recvFragCheck (comm : Comm M) (rank : Nat) : Locked M :=
  match takeCantmatch comm rank with
  | none => ⟨comm, [], false⟩
  | some (next, comm') =>
      let matched := matchThisFrag comm' rank next
      ⟨matched.1, matched.2, true⟩

def Locked.finish (s : Locked M) (rank : Nat) : Comm M × List (Match M) :=
  if s.again then
    match takeCantmatch s.comm rank with
    | none => (s.comm, s.matches_)
    | some (next, comm') =>
        let rest := recvFragMatchProc comm' rank next
        (rest.1, s.matches_ ++ rest.2)
  else (s.comm, s.matches_)

theorem recvFragMatchProc_eq (comm : Comm M) (rank : Nat) (frag : RecvFrag M) :
    recvFragMatchProc comm rank frag =
      Locked.finish
        ⟨(matchThisFrag comm rank frag).1, (matchThisFrag comm rank frag).2, true⟩
        rank := by
  rw [recvFragMatchProc]
  simp only [Locked.finish, if_true]
  split
  · rename_i h
    rw [h]
  · rename_i next comm' h
    rw [h]

theorem recvFragCallback_eq (comm : Comm M) (frag : RecvFrag M) :
    recvFragCallback comm frag = (recvFragEnter comm frag).finish frag.hdrSrc := by
  cases htype : frag.hdrType with
  | match_ =>
      simp only [recvFragCallback, htype, recvFragCallbackMatch, recvFragEnter, true_and]
      cases hover : comm.allowOvertake with
      | true => simp [Locked.finish]
      | false =>
          by_cases hseq : frag.hdrSeq = (comm.procs frag.hdrSrc).expectedSequence
          · simp [Locked.finish, hseq]
          · simp [Locked.finish, hseq]
  | rndv | rget =>
      simp only [recvFragCallback, htype, recvFragMatch, recvFragEnter]
      by_cases hseq : frag.hdrSeq = (comm.procs frag.hdrSrc).expectedSequence
      · simp [hseq, recvFragMatchProc_eq]
      · simp [Locked.finish, hseq]

theorem finish_eq (s : Locked M) (rank : Nat) (h : s.again) :
    s.finish rank =
      (((recvFragCheck s.comm rank).finish rank).1,
        s.matches_ ++ ((recvFragCheck s.comm rank).finish rank).2) := by
  unfold recvFragCheck
  cases htake : takeCantmatch s.comm rank with
  | none => simp [Locked.finish, h, htake]
  | some next =>
      simp only [← recvFragMatchProc_eq]
      simp [Locked.finish, h, htake]

/-! ## Requests -/

def RecvRequest.fits (req : RecvRequest) (frag : RecvFrag M) : Bool :=
  if req.reqTag = anyTag then decide (0 ≤ frag.hdrTag) else frag.hdrTag == req.reqTag

def recvReqMatchSpecificProc (req : RecvRequest) (proc : CommProc M) :
    Option (RecvFrag M) :=
  proc.unexpectedFrags.find? req.fits

/-- The ranks in the order `recv_req_match_wild` looks at them: those after the
last one it found, then the others up to it. -/
def probeOrder (comm : Comm M) : List Nat :=
  List.range' (comm.lastProbed + 1) (comm.numProcs - (comm.lastProbed + 1)) ++
    List.range (comm.lastProbed + 1)

def recvReqMatchWild (comm : Comm M) (req : RecvRequest) : Option (Nat × RecvFrag M) :=
  (probeOrder comm).findSome? fun i =>
    (recvReqMatchSpecificProc req (comm.procs i)).map fun frag => (i, frag)

def searchUnexpected (comm : Comm M) (req : RecvRequest) : Option (Nat × RecvFrag M) :=
  match req.reqPeer with
  | none => recvReqMatchWild comm req
  | some rank =>
      (recvReqMatchSpecificProc req (comm.procs rank)).map fun frag => (rank, frag)

def appendRecvReqToQueue (comm : Comm M) (req : RecvRequest) : Comm M :=
  match req.reqPeer with
  | none => { comm with wildReceives := comm.wildReceives ++ [req] }
  | some rank =>
      comm.setProc rank
        { comm.procs rank with
          specificReceives := (comm.procs rank).specificReceives ++ [req] }

/-- What `recv_req_match_wild` leaves in `last_probed` when it finds a fragment. -/
def noteProbed (comm : Comm M) (req : RecvRequest) (rank : Nat) : Comm M :=
  if req.reqPeer = none then { comm with lastProbed := rank } else comm

/-- `mca_pml_ob1_recv_req_start` once the request has its sequence number.
Probes leave the fragment where it is, except matched probes, which take it like
receives: the one found is the first that fits. -/
def recvReqMatch (comm : Comm M) (req : RecvRequest) : Comm M × List (Match M) :=
  match searchUnexpected comm req with
  | none =>
      if req.reqType = .iprobe ∨ req.reqType = .improbe then (comm, [])
      else (appendRecvReqToQueue comm req, [])
  | some (rank, frag) =>
      let comm := noteProbed comm req rank
      if req.reqType = .iprobe ∨ req.reqType = .probe then (comm, [⟨req, frag⟩])
      else
        let proc := comm.procs rank
        (comm.setProc rank
          { proc with unexpectedFrags := proc.unexpectedFrags.eraseP req.fits },
          [⟨req, frag⟩])

def assigned (comm : Comm M) (req : RecvRequest) : RecvRequest :=
  { req with reqSequence := comm.recvSequence.toNat }

def recvReqStart (comm : Comm M) (req : RecvRequest) : Comm M × List (Match M) :=
  recvReqMatch { comm with recvSequence := comm.recvSequence + 1 } (assigned comm req)

def recvRequestCancel (comm : Comm M) (req : RecvRequest) : Comm M :=
  match req.reqPeer with
  | none => { comm with wildReceives := comm.wildReceives.erase req }
  | some rank =>
      let proc := comm.procs rank
      comm.setProc rank { proc with specificReceives := proc.specificReceives.erase req }

/-! ## A new communicator -/

/-- `add_fragment_to_unexpected` and the `goto` that leads back to it. -/
def addFragmentToUnexpected (comm : Comm M) (rank : Nat) (frag : RecvFrag M) : Comm M :=
  let proc := comm.procs rank
  let added :=
    (comm.setProc rank
      { proc with expectedSequence := proc.expectedSequence + 1 }).appendUnexpected rank frag
  match _h : takeCantmatch added rank with
  | none => added
  | some (next, comm') => addFragmentToUnexpected comm' rank next
termination_by (frags (comm.procs rank).fragsCantMatch).length
decreasing_by
  have hlen := congrArg List.length (takeCantmatch_frags _h)
  simp only [added, proc, Comm.appendUnexpected, Comm.setProc, Function.update_self,
    List.length_cons] at hlen
  omega

def addPending (comm : Comm M) (frag : RecvFrag M) : Comm M :=
  let rank := frag.hdrSrc
  if comm.allowOvertake then comm.appendUnexpected rank frag
  else if frag.hdrSeq = (comm.procs rank).expectedSequence then
    addFragmentToUnexpected comm rank frag
  else appendCantMatch comm rank frag

/-- `mca_pml_ob1_add_comm` on `non_existing_communicator_pending`, `comm` being the
communicator as it is constructed. -/
def addComm (comm : Comm M) (pending : List (RecvFrag M)) : Comm M × List (RecvFrag M) :=
  ((pending.filter fun frag => frag.hdrCtx == comm.contextId).foldl addPending comm,
    pending.filter fun frag => frag.hdrCtx != comm.contextId)

/-! ## Sending -/

/-- The match header `mca_pml_ob1_send` and `mca_pml_ob1_isend` put in front of a
message: the low bits of the sequence number just taken. -/
def sendFrag (comm : Comm M) (dst : Nat) (hdrType : HdrType) (tag : Int) (data : M) :
    Comm M × RecvFrag M :=
  let proc := comm.procs dst
  if comm.allowOvertake then
    (comm, ⟨hdrType, comm.contextId, comm.myRank, tag, 0, data⟩)
  else
    let sequence := proc.sendSequence + 1
    (comm.setProc dst { proc with sendSequence := sequence },
      ⟨hdrType, comm.contextId, comm.myRank, tag, sequence.toUInt16, data⟩)

end ProgPara.Ob1
