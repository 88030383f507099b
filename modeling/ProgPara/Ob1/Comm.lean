import Mathlib.Algebra.GroupWithZero.Nat
import Mathlib.Logic.Function.Basic
import ProgPara.Ob1.OrderedList

/-!
# The matching state of a communicator

`mca_pml_ob1_comm_t` keeps, for one communicator of one process, the receives
posted and not matched, the fragments arrived and not matched, and the
sequence numbers of both directions.  A peer that was never looked up is the
one its constructor makes.

A request and the fragment it is matched with make a `Match`.  For a receive it
is where the data starts to move; for a probe it is the status reported; for a
matched probe it is the fragment put aside for the later `mrecv`.
-/

namespace ProgPara.Ob1

/-- `mca_pml_base_request_type_t`, the types a receive request can have. -/
inductive ReqType where
  | recv
  | iprobe
  | probe
  | improbe
  | mprobe
  deriving Repr, DecidableEq

def anyTag : Int := -1

/-- `mca_pml_ob1_recv_request_t`.  The peer is `none` for `OMPI_ANY_SOURCE`. -/
structure RecvRequest where
  reqType : ReqType
  reqPeer : Option Nat
  reqTag : Int
  reqSequence : Nat
  deriving Repr, DecidableEq

/-- The test on tags: `OMPI_ANY_TAG` takes the tags of users, which are not
negative, and leaves those of the library's own traffic. -/
def RecvRequest.tagMatches (req : RecvRequest) (tag : Int) : Bool :=
  req.reqTag == tag || (req.reqTag == anyTag && decide (0 ≤ tag))

def isWild (req : RecvRequest) : Bool := req.reqPeer == none

def isSpecific (p : Nat) (req : RecvRequest) : Bool := req.reqPeer == some p

namespace RecvRequest

def takes (req : RecvRequest) : Bool := req.reqType != .iprobe && req.reqType != .probe

def waits (req : RecvRequest) : Bool := req.reqType != .iprobe && req.reqType != .improbe

def accepts (req : RecvRequest) (p : Nat) (tag : Int) : Bool :=
  (isWild req || isSpecific p req) && req.tagMatches tag

end RecvRequest

structure CommProc (M : Type*) where
  expectedSequence : UInt16 := 1
  sendSequence : UInt32 := 0
  fragsCantMatch : List (Run M) := []
  specificReceives : List RecvRequest := []
  unexpectedFrags : List (RecvFrag M) := []

/-- `mca_pml_comm_t`, with what its functions read of the communicator itself. -/
structure Comm (M : Type*) where
  contextId : UInt16
  myRank : Nat
  numProcs : Nat
  allowOvertake : Bool := false
  noAnySource : Bool := false
  recvSequence : UInt32 := 0
  lastProbed : Nat := 0
  wildReceives : List RecvRequest := []
  procs : Nat → CommProc M := fun _ => {}

structure Match (M : Type*) where
  req : RecvRequest
  frag : RecvFrag M
  deriving Repr, DecidableEq

variable {M : Type*}

/-- The fragments of a peer that are kept and not matched: those that arrived
ahead of their turn and those nobody asked for yet. -/
def CommProc.held (proc : CommProc M) : List (RecvFrag M) :=
  frags proc.fragsCantMatch ++ proc.unexpectedFrags

def takenFrom (rank : Nat) (done : List (Match M)) : List (RecvFrag M) :=
  (done.filter fun m => m.req.takes && m.frag.hdrSrc == rank).map (·.frag)

namespace Comm

def Posted (comm : Comm M) (req : RecvRequest) : Prop :=
  req ∈ comm.wildReceives ∨ ∃ rank, req ∈ (comm.procs rank).specificReceives

def setProc (comm : Comm M) (rank : Nat) (proc : CommProc M) : Comm M :=
  { comm with procs := Function.update comm.procs rank proc }

def appendUnexpected (comm : Comm M) (rank : Nat) (frag : RecvFrag M) : Comm M :=
  comm.setProc rank
    { comm.procs rank with
      unexpectedFrags := (comm.procs rank).unexpectedFrags ++ [frag] }

end Comm

/-! ## Searching the posted receives -/

/-- `PML_MAX_SEQ`: what an empty queue shows instead of a sequence number. -/
def pmlMaxSeq : Nat := 2 ^ 64 - 1

def headSeq : List RecvRequest → Nat
  | [] => pmlMaxSeq
  | req :: _ => req.reqSequence

/-- `match_incomming`: both queues are walked together, oldest request first.
The result is the request with what is left of the two queues. -/
def matchIncomming (tag : Int) :
    List RecvRequest → List RecvRequest →
      Option (RecvRequest × List RecvRequest × List RecvRequest)
  | wild, specific =>
    if headSeq wild = headSeq specific then none
    else if headSeq wild < headSeq specific then
      match wild with
      | [] => none
      | req :: rest =>
          if req.tagMatches tag then some (req, rest, specific)
          else (matchIncomming tag rest specific).map
            fun (m, w, s) => (m, req :: w, s)
    else
      match specific with
      | [] => none
      | req :: rest =>
          if req.tagMatches tag then some (req, wild, rest)
          else (matchIncomming tag wild rest).map
            fun (m, w, s) => (m, w, req :: s)
termination_by wild specific => wild.length + specific.length

def matchIncommingNoAnySource (tag : Int) :
    List RecvRequest → Option (RecvRequest × List RecvRequest)
  | [] => none
  | req :: rest =>
      if req.tagMatches tag then some (req, rest)
      else (matchIncommingNoAnySource tag rest).map fun (m, s) => (m, req :: s)

/-- The search `match_one` makes, according to what is asserted of the
communicator. -/
def searchPosted (comm : Comm M) (rank : Nat) (frag : RecvFrag M) :
    Option (RecvRequest × List RecvRequest × List RecvRequest) :=
  if comm.noAnySource then
    (matchIncommingNoAnySource frag.hdrTag (comm.procs rank).specificReceives).map
      fun (m, s) => (m, comm.wildReceives, s)
  else matchIncomming frag.hdrTag comm.wildReceives (comm.procs rank).specificReceives

end ProgPara.Ob1
