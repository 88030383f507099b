import ProgPara.Ob1.Job

/-!
# Programs over the matching engine

The processes of a `Program` make their calls on one communicator, all with the
same tag.  `mca_pml_ob1_recv` starts a request and waits until it is matched.
`mca_pml_ob1_send` either hands its message over, when it goes with a match
header, or waits for the acknowledgement that a rendezvous gets once a request
took it.  The network may deliver fragments and the threads may go on handling
them at any time.
-/

namespace ProgPara.Ob1

open Function Relation Network

/-- Where a process stands: between two calls, inside a send of the message `n` of
its channel to `q`, or inside the receive that `req` stands for.  `n` plays the
part of `hdr_src_req`, by which an acknowledgement finds its send. -/
inductive Phase (P M S : Type*) where
  | absent
  | ready (s : S)
  | sending (q : P) (n : Nat) (s : S)
  | receiving (req : RecvRequest) (k : M → S)

structure Exec (P M E : Type*) (S : P → Type*) where
  phase : (p : P) → Phase P M (S p)
  job : Job P M
  aborted : Option (P × E)

inductive Move (P : Type*) where
  | call (p : P) (eager : Bool)
  | resume (p : P)
  | deliver (n : Nat)
  | check (p peer : P)

def tag : Int := 0

/-- `MCA_PML_OB1_RECV_REQUEST_INIT` in `mca_pml_ob1_recv`. -/
def recvFrom (rank : Nat) : RecvRequest := ⟨.recv, some rank, tag, 0⟩

namespace Exec

variable {P M E : Type*} {S : P → Type*} (prog : Program P M E S) (G : Group P)

def init (contextId : UInt16) (noAnySource : Bool) : Exec P M E S where
  phase p := if prog.parent p = none then .ready (prog.entry p) else .absent
  job := .init G contextId false noAnySource
  aborted := none

variable [DecidableEq P]

def launch (p : P) (phase : (q : P) → Phase P M (S q)) (q : P) : Phase P M (S q) :=
  match phase q with
  | .absent => if prog.parent q = some p then .ready (prog.entry q) else .absent
  | ph => ph

def call (e : Exec P M E S) (p : P) (eager : Bool) : Option (Exec P M E S) :=
  match e.phase p with
  | .ready s =>
      match prog.act p s with
      | .halt => none
      | .abort a => some { e with aborted := some (p, a) }
      | .tau s' => some { e with phase := update e.phase p (.ready s') }
      | .spawn s' => some { e with phase := update (launch prog p e.phase) p (.ready s') }
      | .send q m s' =>
          (e.job.step G (.send p q (if eager then .match_ else .rndv) tag m)).map fun job =>
            { e with
              job
              phase := update e.phase p
                (if eager then .ready s' else .sending q (e.job.sent p q).length s') }
      | .recv q k =>
          (e.job.step G (.start p (recvFrom (G.rank q)))).map fun job =>
            { e with
              job
              phase := update e.phase p
                (.receiving (assigned (e.job.comms p) (recvFrom (G.rank q))) k) }
  | _ => none

/-- The state in which the call that `p` is inside of returns, when it does. -/
def finished (e : Exec P M E S) (p : P) : Option (S p) :=
  match e.phase p with
  | .sending q n s =>
      if (e.job.taken G p q).any fun frag => frag.segments.1 == n then some s else none
  | .receiving req k =>
      ((e.job.log p).find? fun m => m.req == req).map fun m => k m.frag.segments.2
  | _ => none

def step (e : Exec P M E S) (mv : Move P) : Option (Exec P M E S) :=
  match e.aborted with
  | some _ => none
  | none =>
      match mv with
      | .call p eager => e.call prog G p eager
      | .resume p => (e.finished G p).map fun s =>
          { e with phase := update e.phase p (.ready s) }
      | .deliver n => (e.job.step G (.deliver n)).map fun job => { e with job }
      | .check p peer => (e.job.step G (.check p peer)).map fun job => { e with job }

def action (e : Exec P M E S) : Move P → Option (Action P M)
  | .call p eager =>
      match e.phase p with
      | .ready s =>
          match prog.act p s with
          | .send q m _ => some (.send p q (if eager then .match_ else .rndv) tag m)
          | .recv q _ => some (.start p (recvFrom (G.rank q)))
          | _ => none
      | _ => none
  | .resume _ => none
  | .deliver n => some (.deliver n)
  | .check p peer => some (.check p peer)

def Step (ok : Job P M → Action P M → Prop) (e e' : Exec P M E S) : Prop :=
  ∃ mv, (∀ a, e.action prog G mv = some a → ok e.job a) ∧ e.step prog G mv = some e'

def Run (ok : Job P M → Action P M → Prop) (e e' : Exec P M E S) : Prop :=
  ReflTransGen (Step prog G ok) e e'

def play : List (Move P) → Exec P M E S → Option (Exec P M E S)
  | [], e => some e
  | mv :: mvs, e => (e.step prog G mv).bind (play mvs)

def Terminal (e : Exec P M E S) : Prop := ∀ mv, e.step prog G mv = none

end Exec

end ProgPara.Ob1
