import ProgPara.Matching.History
import ProgPara.Ob1.Proofs.Matching
import ProgPara.Ob1.Proofs.Sections

/-!
# What a rank has matched

`Receiving` says that the state of a communicator, what was asked of it and what
it matched are those of a reachable history, in which a fragment arrives when
it is handed to `match_one`.
-/

namespace ProgPara.Ob1

open Function Matching

variable {M : Type*} {comm : Comm M} {rank : Nat} {frag : RecvFrag M}

structure Receiving (comm : Comm M) (asked cancelled : List RecvRequest)
    (log : List (Match M)) (h : History RecvRequest (RecvFrag M) Nat) : Prop where
  reachable : History.Reachable rules h
  represents : Represents comm h.board
  regular : Regular comm h.board
  asked_eq : asked = h.asked
  cancelled_eq : cancelled = h.cancelled
  log_eq : log = h.log.map toMatch
  numbered : ∀ req ∈ asked, req.reqSequence < comm.recvSequence.toNat

namespace Receiving

variable {asked cancelled : List RecvRequest} {log : List (Match M)}
  {h : History RecvRequest (RecvFrag M) Nat}

theorem init {size : Nat} {contextId : UInt16} {allowOvertake noAnySource : Bool}
    (hsize : 0 < size) :
    Receiving
      ({ contextId, myRank := rank, numProcs := size, allowOvertake, noAnySource } : Comm M)
      [] [] [] History.init where
  reachable := .refl
  represents := {
    wild := rfl
    specific := fun _ => rfl
    unexpected := fun _ => rfl
    sorted := .nil
    numbered := fun _ h => by cases h
    waits := fun _ h => by cases h
    noWild := fun _ _ h => by cases h }
  regular := {
    probed := hsize
    ranks := fun _ _ h => by cases h
    tags := fun _ _ h => by cases h }
  asked_eq := rfl
  cancelled_eq := rfl
  log_eq := rfl
  numbered _ h := by cases h

variable (hr : Receiving comm asked cancelled log h)
include hr

theorem sound : History.Sound rules h := hr.reachable.sound

/-- The numbers of a peer play no part. -/
theorem setProc {rank : Nat} {proc : CommProc M}
    (hspecific : proc.specificReceives = (comm.procs rank).specificReceives)
    (hunexpected : proc.unexpectedFrags = (comm.procs rank).unexpectedFrags) :
    Receiving (comm.setProc rank proc) asked cancelled log h where
  reachable := hr.reachable
  represents := hr.represents.setProc hspecific hunexpected
  regular := ⟨hr.regular.probed, hr.regular.ranks, hr.regular.tags⟩
  asked_eq := hr.asked_eq
  cancelled_eq := hr.cancelled_eq
  log_eq := hr.log_eq
  numbered := hr.numbered

theorem matchOne (hrank : rank < comm.numProcs) (htag : frag.hdrTag ≠ anyTag)
    (hfresh : frag ∉ h.arrived rank) :
    Receiving (Ob1.matchOne comm rank frag).1 asked cancelled
      (log ++ (Ob1.matchOne comm rank frag).2) (h.arrive rules rank frag) := by
  obtain ⟨hrepresents, hdone⟩ := hr.represents.matchOne rank frag
  have hfixed := matchOne_fixed comm rank frag
  have hprobed : (Ob1.matchOne comm rank frag).1.lastProbed = comm.lastProbed :=
    Comm.eq_of_fixed Comm.lastProbed (fun _ => rfl) hfixed
  have hprocs : (Ob1.matchOne comm rank frag).1.numProcs = comm.numProcs :=
    Comm.eq_of_fixed Comm.numProcs (fun _ => rfl) hfixed
  have hsequence : (Ob1.matchOne comm rank frag).1.recvSequence = comm.recvSequence :=
    Comm.eq_of_fixed Comm.recvSequence (fun _ => rfl) hfixed
  refine ⟨hr.reachable.tail (.arrive rank frag hfresh), hrepresents, ?_, hr.asked_eq,
    hr.cancelled_eq, ?_, ?_⟩
  · refine ⟨?_, ?_, ?_⟩
    · rw [hprobed, hprocs]
      exact hr.regular.probed
    · intro p f hf
      rw [hprocs]
      rcases History.mem_waiting_arrive hf with hf | ⟨rfl, -, -⟩
      · exact hr.regular.ranks p f hf
      · exact hrank
    · intro p f hf
      rcases History.mem_waiting_arrive hf with hf | ⟨-, rfl, -⟩
      · exact hr.regular.tags p f hf
      · exact htag
  · rw [hdone, hr.log_eq]
    simp [History.arrive]
  · rw [hsequence]
    exact hr.numbered

theorem matchThisFrag (hrank : rank < comm.numProcs) (htag : frag.hdrTag ≠ anyTag)
    (hfresh : frag ∉ h.arrived rank) :
    Receiving (Ob1.matchThisFrag comm rank frag).1 asked cancelled
      (log ++ (Ob1.matchThisFrag comm rank frag).2) (h.arrive rules rank frag) :=
  Receiving.matchOne (hr.setProc rfl rfl) hrank htag hfresh

theorem recvReqStart {req : RecvRequest} (hwrap : comm.recvSequence.toNat + 1 < 2 ^ 32)
    (hno : comm.noAnySource → req.reqPeer ≠ none) :
    Receiving (Ob1.recvReqStart comm req).1 (asked ++ [assigned comm req]) cancelled
      (log ++ (Ob1.recvReqStart comm req).2)
      (h.post rules (searchOrder comm req) (assigned comm req)) := by
  obtain ⟨hrepresents, hregular, hdone⟩ :=
    hr.represents.recvReqStart hr.regular hwrap hno
  obtain ⟨probed, hfixed⟩ := recvReqStart_fixed comm req
  have hsequence : (Ob1.recvReqStart comm req).1.recvSequence = comm.recvSequence + 1 :=
    congrArg Comm.recvSequence hfixed
  have hsucc : (comm.recvSequence + 1).toNat = comm.recvSequence.toNat + 1 := by
    rw [UInt32.toNat_add]
    exact Nat.mod_eq_of_lt hwrap
  have hfresh : assigned comm req ∉ h.asked := by
    intro hmem
    have hlt := hr.numbered _ (hr.asked_eq ▸ hmem)
    exact Nat.lt_irrefl _ hlt
  have hcovers : h.board.Covers rules (searchOrder comm req) (assigned comm req) :=
    hr.regular.covers (assigned comm req)
  refine ⟨hr.reachable.tail (.post _ _ hcovers hfresh), hrepresents, hregular, ?_,
    hr.cancelled_eq, ?_, ?_⟩
  · rw [hr.asked_eq]
    rfl
  · rw [hdone, hr.log_eq]
    simp [History.post]
  · intro r hmem
    rw [hsequence, hsucc]
    rcases List.mem_append.mp hmem with hmem | hmem
    · exact Nat.lt_succ_of_lt (hr.numbered r hmem)
    · rw [List.mem_singleton.mp hmem]
      exact Nat.lt_succ_self _

theorem recvRequestCancel (req : RecvRequest) :
    Receiving (Ob1.recvRequestCancel comm req) asked (cancelled ++ [req]) log
      (h.cancel req) := by
  have hfixed := recvRequestCancel_fixed comm req
  have hprobed : (Ob1.recvRequestCancel comm req).lastProbed = comm.lastProbed :=
    Comm.eq_of_fixed Comm.lastProbed (fun _ => rfl) hfixed
  have hprocs : (Ob1.recvRequestCancel comm req).numProcs = comm.numProcs :=
    Comm.eq_of_fixed Comm.numProcs (fun _ => rfl) hfixed
  have hsequence : (Ob1.recvRequestCancel comm req).recvSequence = comm.recvSequence :=
    Comm.eq_of_fixed Comm.recvSequence (fun _ => rfl) hfixed
  refine ⟨hr.reachable.tail (.cancel req), hr.represents.recvRequestCancel req, ?_,
    hr.asked_eq, ?_, hr.log_eq, ?_⟩
  · refine ⟨?_, ?_, hr.regular.tags⟩
    · rw [hprobed, hprocs]
      exact hr.regular.probed
    · rw [hprocs]
      exact hr.regular.ranks
  · rw [hr.cancelled_eq]
    rfl
  · rw [hsequence]
    exact hr.numbered

end Receiving

end ProgPara.Ob1
