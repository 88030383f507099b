import ProgPara.Ob1.Proofs.Conservation

/-!
# Fragments that came before their communicator

A fragment that names a communicator which is not there yet waits in
`non_existing_communicator_pending`, and `mca_pml_ob1_add_comm` puts it into the
queues of its peer without the functions that match.  That is what these would have
done, nothing being posted yet.
-/

namespace ProgPara.Ob1

open Function

variable {M : Type*} {comm : Comm M} {frag : RecvFrag M} {rank : Nat}

/-- Nothing is posted, and where messages may overtake each other none waits. -/
structure Idle (comm : Comm M) : Prop where
  posted : ∀ req, ¬comm.Posted req
  overtake : comm.allowOvertake → ∀ rank, (comm.procs rank).fragsCantMatch = []

section Posted

variable (h : ∀ req, ¬comm.Posted req)
include h

theorem not_posted_setProc {proc : CommProc M}
    (hproc : proc.specificReceives = (comm.procs rank).specificReceives)
    (req : RecvRequest) : ¬(comm.setProc rank proc).Posted req := by
  intro hreq
  refine h req (hreq.of_setProc ?_)
  rw [hproc]
  exact fun _ => id

theorem matchOne_eq_appendUnexpected (rank : Nat) (frag : RecvFrag M) :
    matchOne comm rank frag = (comm.appendUnexpected rank frag, []) := by
  rw [matchOne]
  split
  · rfl
  · rename_i hsearch
    exact absurd (searchPosted_posted hsearch).1 (h _)

theorem not_posted_appendUnexpected (rank : Nat) (frag : RecvFrag M) (req : RecvRequest) :
    ¬(comm.appendUnexpected rank frag).Posted req := by
  refine not_posted_setProc h ?_ req
  rfl

theorem matchThisFrag_eq_appendUnexpected (rank : Nat) (frag : RecvFrag M) :
    matchThisFrag comm rank frag =
      ((comm.setProc rank
        { comm.procs rank with
          expectedSequence := (comm.procs rank).expectedSequence + 1 }).appendUnexpected
            rank frag, []) := by
  refine matchOne_eq_appendUnexpected (not_posted_setProc h ?_) rank frag
  rfl

theorem not_posted_matchThisFrag (rank : Nat) (frag : RecvFrag M) (req : RecvRequest) :
    ¬(matchThisFrag comm rank frag).1.Posted req := by
  rw [matchThisFrag_eq_appendUnexpected h]
  refine not_posted_appendUnexpected (not_posted_setProc h ?_) rank frag req
  rfl

theorem takeCantmatch_posted {comm' : Comm M} {next : RecvFrag M}
    (htake : takeCantmatch comm rank = some (next, comm')) (req : RecvRequest) :
    ¬comm'.Posted req := by
  obtain ⟨⟨f, queue⟩, -, heq⟩ := Option.map_eq_some_iff.mp htake
  cases heq
  refine not_posted_setProc h ?_ req
  rfl

end Posted

theorem recvFragMatchProc_eq_add (h : ∀ req, ¬comm.Posted req) :
    recvFragMatchProc comm rank frag = (addFragmentToUnexpected comm rank frag, []) := by
  fun_induction addFragmentToUnexpected comm rank frag with
  | case1 comm frag proc added htake =>
      have hmatch : matchThisFrag comm rank frag = (added, []) :=
        matchThisFrag_eq_appendUnexpected h rank frag
      rw [recvFragMatchProc_eq, hmatch]
      simp [Locked.finish, htake]
  | case2 comm frag proc added next comm' htake ih =>
      have hmatch : matchThisFrag comm rank frag = (added, []) :=
        matchThisFrag_eq_appendUnexpected h rank frag
      have hadded := not_posted_matchThisFrag h rank frag
      rw [hmatch] at hadded
      have hrest := ih (takeCantmatch_posted hadded htake)
      rw [recvFragMatchProc_eq, hmatch]
      simp [Locked.finish, htake, hrest]

/-- What `mca_pml_ob1_add_comm` does with a fragment is what its callback does, but
for a long message where messages may overtake each other. -/
theorem recvFragCallback_eq_addPending (h : Idle comm)
    (hshort : comm.allowOvertake → frag.hdrType = .match_) :
    recvFragCallback comm frag = (addPending comm frag, []) := by
  rw [recvFragCallback_eq]
  simp only [recvFragEnter, addPending]
  by_cases hover : comm.allowOvertake
  · have htype := hshort hover
    have hring := h.overtake hover frag.hdrSrc
    rw [if_neg (fun h' => h'.1 ⟨htype, hover⟩), if_pos ⟨htype, hover⟩, if_pos hover,
      matchOne_eq_appendUnexpected h.posted]
    simp [Locked.finish, takeCantmatch, Comm.appendUnexpected, Comm.setProc, hring,
      checkCantmatchForMatch]
  · have hnot : ¬(frag.hdrType = .match_ ∧ comm.allowOvertake) := fun h' => hover h'.2
    rw [if_neg hover]
    by_cases hseq : frag.hdrSeq = (comm.procs frag.hdrSrc).expectedSequence
    · rw [if_pos hseq, if_neg (fun h' => h'.2 hseq), if_neg hnot, ← recvFragMatchProc_eq,
        recvFragMatchProc_eq_add h.posted]
    · rw [if_neg hseq, if_pos ⟨hnot, hseq⟩]
      rfl

theorem added_conserves (h : ∀ req, ¬comm.Posted req) (hsrc : frag.hdrSrc = rank) :
    let added :=
      (comm.setProc rank
        { comm.procs rank with
          expectedSequence := (comm.procs rank).expectedSequence + 1 }).appendUnexpected
            rank frag
    Conserves comm [frag] added [] ∧ (∀ req, ¬added.Posted req) ∧
      added.fixed = comm.fixed := by
  intro added
  have hmatch : matchThisFrag comm rank frag = (added, []) :=
    matchThisFrag_eq_appendUnexpected h rank frag
  have hconserves := matchThisFrag_conserves (fun req hreq => absurd hreq (h req)) hsrc
  have hposted := not_posted_matchThisFrag h rank frag
  have hfixed := matchThisFrag_fixed comm rank frag
  rw [hmatch] at hconserves hposted hfixed
  exact ⟨hconserves, hposted, hfixed⟩

theorem addFragmentToUnexpected_conserves (h : ∀ req, ¬comm.Posted req) (ht : Tidy comm)
    (hsrc : frag.hdrSrc = rank) :
    Conserves comm [frag] (addFragmentToUnexpected comm rank frag) [] ∧
      (∀ req, ¬(addFragmentToUnexpected comm rank frag).Posted req) ∧
        (addFragmentToUnexpected comm rank frag).fixed = comm.fixed := by
  fun_induction addFragmentToUnexpected comm rank frag with
  | case1 comm frag proc added htake => exact added_conserves h hsrc
  | case2 comm frag proc added next comm' htake ih =>
      obtain ⟨hconserves, hadded, hfixed⟩ := added_conserves h hsrc
      have hposted := takeCantmatch_posted hadded htake
      have htidy := hconserves.tidy ht
      have hfixed' := takeCantmatch_fixed htake
      obtain ⟨⟨f, queue⟩, hcheck, heq⟩ := Option.map_eq_some_iff.mp htake
      cases heq
      have hfrags := checkCantmatch_frags hcheck
      have hnext : next.hdrSrc = rank := by
        refine htidy.source rank next (List.mem_append_left _ ?_)
        rw [hfrags]
        exact List.mem_cons_self
      have hheld : ∀ p, (((added.setProc rank
          { added.procs rank with fragsCantMatch := queue }).procs p).held ++
            [next].filter (·.hdrSrc == p)).Perm (added.procs p).held := by
        refine held_without hnext ?_
        simp only [CommProc.held, hfrags]
        exact List.perm_append_singleton next _
      obtain ⟨hrest, hposted', hfixed''⟩ := ih hposted
        ⟨fun req hreq => absurd hreq (hposted req),
          fun p f hf => htidy.source p f ((hheld p).subset (List.mem_append_left _ hf))⟩
        hnext
      refine ⟨?_, hposted', hfixed''.trans (hfixed'.trans hfixed)⟩
      exact hconserves.trans
        (hrest.of_kept (fun req hreq => absurd hreq (hposted req)) hheld)

theorem addPending_conserves (h : Idle comm) (ht : Tidy comm) (frag : RecvFrag M) :
    Conserves comm [frag] (addPending comm frag) [] ∧ Idle (addPending comm frag) ∧
      (addPending comm frag).fixed = comm.fixed := by
  have hwaits : ∀ req, comm.Posted req → req.waits :=
    fun req hreq => absurd hreq (h.posted req)
  simp only [addPending]
  split
  · rename_i hover
    have hconserves : Conserves comm [frag] (matchOne comm frag.hdrSrc frag).1
        (matchOne comm frag.hdrSrc frag).2 := matchOne_conserves hwaits rfl
    rw [matchOne_eq_appendUnexpected h.posted] at hconserves
    refine ⟨hconserves, ⟨not_posted_appendUnexpected h.posted _ frag, fun _ p => ?_⟩,
      Comm.fixed_setProc comm rfl⟩
    by_cases hp : p = frag.hdrSrc
    · subst hp
      simp [Comm.appendUnexpected, Comm.setProc, h.overtake hover]
    · simp [Comm.appendUnexpected, Comm.setProc, hp, h.overtake hover]
  · rename_i hover
    split
    · have hadd : Conserves comm [frag]
          (addFragmentToUnexpected comm frag.hdrSrc frag) [] ∧ _ :=
        addFragmentToUnexpected_conserves h.posted ht rfl
      obtain ⟨hconserves, hposted, hfixed⟩ := hadd
      refine ⟨hconserves, ⟨hposted, fun hover' => absurd ?_ hover⟩, hfixed⟩
      rwa [Comm.eq_of_fixed Comm.allowOvertake (fun _ => rfl) hfixed] at hover'
    · rename_i hseq
      have hentered : Entered comm frag ⟨appendCantMatch comm frag.hdrSrc frag, [], false⟩ :=
        .queued (fun _ => by simpa using hover) hseq
      refine ⟨hentered.conserves hwaits, ⟨not_posted_setProc h.posted rfl, ?_⟩,
        hentered.fixed⟩
      exact fun hover' => absurd hover' hover

theorem idle_new (contextId : UInt16) (myRank numProcs : Nat)
    (allowOvertake noAnySource : Bool) :
    Idle ({ contextId, myRank, numProcs, allowOvertake, noAnySource } : Comm M) ∧
      Tidy ({ contextId, myRank, numProcs, allowOvertake, noAnySource } : Comm M) := by
  refine ⟨⟨fun req hreq => ?_, fun _ _ => rfl⟩, ⟨fun req hreq => ?_, fun p f hf => ?_⟩⟩
  · simp [Comm.Posted] at hreq
  · simp [Comm.Posted] at hreq
  · simp [CommProc.held] at hf

theorem foldl_addPending (h : Idle comm) (ht : Tidy comm) (pending : List (RecvFrag M)) :
    Conserves comm pending (pending.foldl addPending comm) [] ∧
      ((comm.allowOvertake → ∀ frag ∈ pending, frag.hdrType = .match_) →
        pending.foldl addPending comm =
          pending.foldl (fun comm frag => (recvFragCallback comm frag).1) comm) := by
  induction pending generalizing comm with
  | nil => exact ⟨.refl comm, fun _ => rfl⟩
  | cons frag pending ih =>
      obtain ⟨hconserves, hidle, hfixed⟩ := addPending_conserves h ht frag
      obtain ⟨hrest, heq⟩ := ih hidle (hconserves.tidy ht)
      refine ⟨hconserves.trans hrest, fun hshort => ?_⟩
      have hhead := recvFragCallback_eq_addPending h
        fun hover => hshort hover frag List.mem_cons_self
      rw [List.foldl_cons, List.foldl_cons, hhead]
      refine heq fun hover f hf => hshort ?_ f (List.mem_cons_of_mem _ hf)
      rwa [Comm.eq_of_fixed Comm.allowOvertake (fun _ => rfl) hfixed] at hover

/-- `mca_pml_ob1_add_comm` keeps every fragment of the new communicator, and leaves it
as if they had arrived after it was there: in the same order for each peer, those in
turn among the unexpected ones and the others in the ring. -/
theorem addComm_eq_arrivals (contextId : UInt16) (myRank numProcs : Nat)
    (allowOvertake noAnySource : Bool) (pending : List (RecvFrag M)) :
    let comm : Comm M := { contextId, myRank, numProcs, allowOvertake, noAnySource }
    (∀ p, ((addComm comm pending).1.procs p).held.Perm
      (pending.filter fun frag => frag.hdrSrc == p && frag.hdrCtx == contextId)) ∧
    ((allowOvertake →
        ∀ frag ∈ pending, frag.hdrCtx = contextId → frag.hdrType = .match_) →
      (addComm comm pending).1 =
        (pending.filter fun frag => frag.hdrCtx == contextId).foldl
          (fun comm frag => (recvFragCallback comm frag).1) comm) := by
  intro comm
  obtain ⟨hidle, htidy⟩ := idle_new contextId myRank numProcs allowOvertake noAnySource
  obtain ⟨hconserves, heq⟩ := foldl_addPending hidle htidy
    (pending.filter fun frag => frag.hdrCtx == contextId)
  constructor
  · intro p
    have hkept := hconserves.kept p
    rw [List.filter_filter] at hkept
    simp only [takenFrom, List.filter_nil, List.map_nil, List.append_nil] at hkept
    exact hkept
  · intro hshort
    refine heq fun hover frag hfrag => ?_
    obtain ⟨hmem, hctx⟩ := List.mem_filter.mp hfrag
    exact hshort hover frag hmem (beq_iff_eq.mp hctx)

end ProgPara.Ob1
