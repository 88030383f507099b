import ProgPara.Memory
import ProgPara.Network.Basic

/-!
# The MPI calls

Each call checks its peer against the remote group of the communicator before
it touches any buffer, and its accesses to the variables it is given are the
checked ones of `Memory`.  A call whose peer is not in the group stops the job;
an access that leaves its object is recorded as a fault of the call.

All messages have the same tag, which is left out.  Communicators are kept as
values; the bytes of a handle or of a status are not modelled.
-/

namespace ProgPara.Mpi

open Memory Network

/-- The calls that access variables, with the variable and the peer. -/
inductive Call (V : Type) where
  | commSize (v : V)
  | commRank (v : V)
  | commSpawnMultiple (v : V)
  | send (v : V) (dest : Int)
  | recv (v : V) (source : Int)
  deriving DecidableEq, Repr

abbrev Message := List UInt8

structure Intercomm (P : Type) where
  size : Nat
  member : Fin size → P

abbrev Comm (P : Type) := Option (Intercomm P)

def sizeofInt : Nat := 4

def success : Int := 0

variable {P V S : Type}

/-- The process of a rank; no process for a rank that `peer_invalid` refuses. -/
def Intercomm.peer (comm : Intercomm P) (rank : Int) : Option P :=
  if h : 0 ≤ rank ∧ rank < comm.size then
    some (comm.member ⟨rank.toNat, by omega⟩)
  else none

theorem Intercomm.peer_of_lt {comm : Intercomm P} {k : Nat} (h : k < comm.size) :
    comm.peer k = some (comm.member ⟨k, h⟩) := by
  simp [peer, h]

theorem Intercomm.peer_of_le {comm : Intercomm P} {k : Nat} (h : comm.size ≤ k) :
    comm.peer k = none := by
  simp [peer, Nat.not_lt.mpr h]

def faults (outOfBounds : Bool) (call : Call V) : List (Call V) :=
  if outOfBounds then [call] else []

@[simp] theorem faults_false (call : Call V) : faults false call = [] := rfl

@[simp] theorem faults_true (call : Call V) : faults true call = [call] := rfl

variable {size : Nat}

def commSize (v : V) (o : Obj size) (n : Nat) (k : Obj size → List (Call V) → S) :
    Action P Message (Call V) S :=
  let (o', out) := o.write (intBytes n)
  .tau (k o' (faults out (.commSize v)))

def commRank (v : V) (o : Obj size) (r : Nat) (k : Obj size → List (Call V) → S) :
    Action P Message (Call V) S :=
  let (o', out) := o.write (intBytes r)
  .tau (k o' (faults out (.commRank v)))

/-- `MPI_Comm_spawn_multiple` of `total` processes in all, the last argument
being `v`: one error code is written for each process. -/
def commSpawnMultiple (v : V) (o : Obj size) (total : Nat)
    (k : Obj size → List (Call V) → S) : Action P Message (Call V) S :=
  let (o', out) := o.write (List.replicate total (intBytes success)).flatten
  .spawn (k o' (faults out (.commSpawnMultiple v)))

/-- `MPI_Send(&v, count, MPI_INT, dest, 0, comm)`. -/
def send (comm : Comm P) (v : V) (o : Obj size) (frame : Nat → UInt8) (count : Nat)
    (dest : Int) (k : List (Call V) → S) : Action P Message (Call V) S :=
  match comm.bind (·.peer dest) with
  | none => .abort (.send v dest)
  | some q =>
      let (m, out) := o.read frame (sizeofInt * count)
      .send q m (k (faults out (.send v dest)))

/-- `MPI_Recv(&v, count, MPI_INT, source, 0, comm, &etat)`. -/
def recv (comm : Comm P) (v : V) (o : Obj size) (count : Nat) (source : Int)
    (k : Obj size → List (Call V) → S) : Action P Message (Call V) S :=
  match comm.bind (·.peer source) with
  | none => .abort (.recv v source)
  | some q => .recv q fun m =>
      let (o', out) := o.write (m.take (sizeofInt * count))
      k o' (faults out (.recv v source))

section Calls

variable {comm : Comm P} {v : V} {o : Obj size} {frame : Nat → UInt8}
  {count total : Nat} {rank : Int} {q : P}

theorem commSize_eq {n : Nat} {k : Obj size → List (Call V) → S} :
    (commSize v o n k : Action P Message (Call V) S) =
      .tau (k (o.blit (intBytes n)) (faults (decide (size < sizeofInt)) (.commSize v))) := by
  rw [commSize, Obj.write_eq]
  rfl

theorem commRank_eq {r : Nat} {k : Obj size → List (Call V) → S} :
    (commRank v o r k : Action P Message (Call V) S) =
      .tau (k (o.blit (intBytes r)) (faults (decide (size < sizeofInt)) (.commRank v))) := by
  rw [commRank, Obj.write_eq]
  rfl

theorem commSpawnMultiple_eq {k : Obj size → List (Call V) → S} :
    (commSpawnMultiple v o total k : Action P Message (Call V) S) =
      .spawn (k (o.blit (List.replicate total (intBytes success)).flatten)
        (faults (decide (size < sizeofInt * total)) (.commSpawnMultiple v))) := by
  simp [commSpawnMultiple, Obj.write_eq, sizeofInt, Nat.mul_comm]

theorem send_eq {k : List (Call V) → S} (hq : comm.bind (·.peer rank) = some q) :
    send comm v o frame count rank k =
      .send q (o.read frame (sizeofInt * count)).1
        (k (faults (decide (size < sizeofInt * count)) (.send v rank))) := by
  simp only [send, hq, Obj.read_snd]

theorem send_eq_abort {k : List (Call V) → S} (hq : comm.bind (·.peer rank) = none) :
    send comm v o frame count rank k = .abort (.send v rank) := by
  simp only [send, hq]

theorem recv_eq {k : Obj size → List (Call V) → S}
    (hq : comm.bind (·.peer rank) = some q) :
    recv comm v o count rank k = .recv q fun m =>
      k (o.blit (m.take (sizeofInt * count)))
        (faults (decide (size < (m.take (sizeofInt * count)).length)) (.recv v rank)) := by
  simp only [recv, hq, Obj.write_eq]

/-! ### What follows a call

The state after a call is its continuation at the values the call delivers. -/

variable {s' : S}

theorem after_commSize {n : Nat} {k : Obj size → List (Call V) → S}
    (h : (commSize v o n k : Action P Message (Call V) S).After s') :
    ∃ o' f, s' = k o' f := ⟨_, _, h⟩

theorem after_commRank {r : Nat} {k : Obj size → List (Call V) → S}
    (h : (commRank v o r k : Action P Message (Call V) S).After s') :
    ∃ o' f, s' = k o' f := ⟨_, _, h⟩

theorem after_commSpawnMultiple {k : Obj size → List (Call V) → S}
    (h : (commSpawnMultiple v o total k : Action P Message (Call V) S).After s') :
    ∃ o' f, s' = k o' f := ⟨_, _, h⟩

theorem after_send {k : List (Call V) → S}
    (h : (send comm v o frame count rank k).After s') : ∃ f, s' = k f := by
  unfold send at h
  split at h
  · cases h
  · exact ⟨_, h⟩

theorem after_recv {k : Obj size → List (Call V) → S}
    (h : (recv comm v o count rank k).After s') : ∃ o' f, s' = k o' f := by
  unfold recv at h
  split at h
  · cases h
  · obtain ⟨m, rfl⟩ := h
    exact ⟨_, _, rfl⟩

end Calls

/-- The executables a spawn starts, in rank order: `maxprocs[j]` instances of
`commands[j]` for each of the `count` commands. -/
def spawned {X : Type} (count : Nat) (commands : List (Option X)) (maxprocs : List Int) :
    List X :=
  (((commands.zip maxprocs).take count).map fun cm =>
    List.replicate cm.2.toNat cm.1).flatten.filterMap id

end ProgPara.Mpi
