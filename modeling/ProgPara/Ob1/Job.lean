import Mathlib.Logic.Relation
import ProgPara.Network.Basic
import ProgPara.Ob1.Matching

/-!
# A job on one communicator

The state of one communicator at each of its processes, and the fragments in
flight between them, which arrive in any order.  A step is a call that sends,
starts or cancels, or one locked section of a thread that handles a fragment: any
number of threads may be between two sections.

A process knows the others by their ranks in its remote group, which is the
group itself on an intracommunicator and the other one on an intercommunicator.
`Group` is what that comes to: whom a process reaches, and that those who reach
it have different ranks.

`sent`, `asked`, `cancelled` and `log` are histories that no function reads.  So
is the number that goes with the data of a message, its place among the messages
of its channel: it tells apart messages that are otherwise equal.
-/

namespace ProgPara.Ob1

open Function Relation

/-- The processes of a communicator.  `size p` is the number of processes in the
remote group of `p`. -/
structure Group (P : Type*) where
  rank : P → Nat
  size : P → Nat
  reaches : P → P → Bool
  reaches_symm : ∀ {p q}, reaches p q → reaches q p
  rank_lt : ∀ {p q}, reaches p q → rank p < size q
  rank_inj : ∀ {p p' q}, reaches p q → reaches p' q → rank p = rank p' → p = p'
  size_pos : ∀ p, 0 < size p

def Group.intra (n : Nat) (h : 0 < n) : Group (Fin n) where
  rank p := p
  size _ := n
  reaches _ _ := true
  reaches_symm := id
  rank_lt := fun {p _} _ => p.isLt
  rank_inj := fun _ _ h => Fin.ext h
  size_pos _ := h

variable {P M : Type*}

abbrev Fragment (M : Type*) := RecvFrag (Nat × M)

structure Packet (P M : Type*) where
  src : P
  dst : P
  frag : Fragment M

/-- `checks p q` is the number of threads of `p` that have matched a fragment of
`q` and are to look for the next one. -/
structure Job (P M : Type*) where
  comms : P → Comm (Nat × M)
  flying : List (Packet P M)
  checks : P → P → Nat
  sent : P → P → List (Fragment M)
  asked : P → List RecvRequest
  cancelled : P → List RecvRequest
  log : P → List (Match (Nat × M))

inductive Action (P M : Type*) where
  | send (src dst : P) (hdrType : HdrType) (tag : Int) (data : M)
  | deliver (n : Nat)
  | check (p peer : P)
  | start (p : P) (req : RecvRequest)
  | cancel (p : P) (req : RecvRequest)

namespace Job

/-- The communicator as it is created, with what its info keys assert. -/
def init (G : Group P) (contextId : UInt16) (allowOvertake noAnySource : Bool) :
    Job P M where
  comms p :=
    { contextId, myRank := G.rank p, numProcs := G.size p, allowOvertake, noAnySource }
  flying := []
  checks _ _ := 0
  sent _ _ := []
  asked _ := []
  cancelled _ := []
  log _ := []

variable [DecidableEq P]

def set (job : Job P M) (p : P) (comm : Comm (Nat × M))
    (done : List (Match (Nat × M))) : Job P M :=
  { job with
    comms := update job.comms p comm
    log := update job.log p (job.log p ++ done) }

/-- The effect of a locked section, `waiting` threads being between two of them
besides the one that was in it. -/
def leave (job : Job P M) (p peer : P) (waiting : Nat) (s : Locked (Nat × M)) : Job P M :=
  { job.set p s.comm s.matches_ with
    checks := update job.checks p
      (update (job.checks p) peer (waiting + if s.again then 1 else 0)) }

def launch (job : Job P M) (src dst : P) (frag : Fragment M) : Job P M :=
  { job with
    flying := job.flying ++ [⟨src, dst, frag⟩]
    sent := Network.modifyAt src dst (· ++ [frag]) job.sent }

def step (G : Group P) (job : Job P M) : Action P M → Option (Job P M)
  | .send src dst hdrType tag data =>
      if G.reaches src dst then
        let (comm, frag) := sendFrag (job.comms src) (G.rank dst) hdrType tag
          ((job.sent src dst).length, data)
        some ((job.set src comm []).launch src dst frag)
      else none
  | .deliver n =>
      match job.flying[n]? with
      | none => none
      | some ⟨src, dst, frag⟩ =>
          some ({ job with flying := job.flying.eraseIdx n }.leave dst src
            (job.checks dst src) (recvFragEnter (job.comms dst) frag))
  | .check p peer =>
      if job.checks p peer = 0 then none
      else some (job.leave p peer (job.checks p peer - 1)
        (recvFragCheck (job.comms p) (G.rank peer)))
  | .start p req =>
      let (comm, done) := recvReqStart (job.comms p) req
      some { job.set p comm done with
        asked := update job.asked p (job.asked p ++ [assigned (job.comms p) req]) }
  | .cancel p req =>
      some { job.set p (recvRequestCancel (job.comms p) req) [] with
        cancelled := update job.cancelled p (job.cancelled p ++ [req]) }

/-- The steps whose actions are allowed by `ok` in the state they are taken in. -/
def Step (G : Group P) (ok : Job P M → Action P M → Prop) (job job' : Job P M) : Prop :=
  ∃ a, ok job a ∧ job.step G a = some job'

def Run (G : Group P) (ok : Job P M → Action P M → Prop) (job job' : Job P M) : Prop :=
  ReflTransGen (Step G ok) job job'

def exec (G : Group P) (ok : Job P M → Action P M → Prop)
    [∀ job a, Decidable (ok job a)] (job : Job P M) : List (Action P M) → Option (Job P M)
  | [] => some job
  | a :: as =>
      if ok job a then (job.step G a).bind fun job' => exec G ok job' as else none

theorem run_of_exec {G : Group P} {ok : Job P M → Action P M → Prop}
    [∀ job a, Decidable (ok job a)] {job job' : Job P M} {as : List (Action P M)}
    (h : exec G ok job as = some job') : Run G ok job job' := by
  induction as generalizing job with
  | nil =>
      cases h
      exact .refl
  | cons a as ih =>
      rw [exec] at h
      split at h
      · rename_i hok
        obtain ⟨next, hstep, hrest⟩ := Option.bind_eq_some_iff.mp h
        exact .head ⟨a, hok, hstep⟩ (ih hrest)
      · cases h

/-- What every step keeps, every run keeps. -/
theorem Run.keeps {G : Group P} {ok : Job P M → Action P M → Prop} {I : Job P M → Prop}
    (hkeeps : ∀ job job' a, I job → job.step G a = some job' → I job') {job job' : Job P M}
    (h : Run G ok job job') (hI : I job) : I job' := by
  induction h with
  | refl => exact hI
  | tail _ hstep ih =>
      obtain ⟨a, -, hstep⟩ := hstep
      exact hkeeps _ _ a ih hstep

/-! ## Where a message can be -/

def inFlight (job : Job P M) (src dst : P) : List (Fragment M) :=
  (job.flying.filter fun p => p.src = src ∧ p.dst = dst).map (·.frag)

def held (job : Job P M) (G : Group P) (src dst : P) : List (Fragment M) :=
  ((job.comms dst).procs (G.rank src)).held

def taken (job : Job P M) (G : Group P) (src dst : P) : List (Fragment M) :=
  takenFrom (G.rank src) (job.log dst)

end Job

end ProgPara.Ob1
