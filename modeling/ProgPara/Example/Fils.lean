import ProgPara.Mpi

/-!
# The children: `coordinateur.c` and `prg1.c`

The two programs differ in the texts they print.
-/

namespace ProgPara.Example

open Memory Network

inductive Variable where
  | nombre
  | returnValue
  | errcodes
  | temperatureAmbiante
  | temperatureDepart
  | myrank
  | temperature
  deriving DecidableEq, Repr

abbrev Call := Mpi.Call Variable

/-- What a process finds on its stack: `frame v j` is the byte `j` bytes after
the start of the variable `v`, before `v` is first written and beyond its end. -/
abbrev Frame := Variable → Nat → UInt8

def Frame.uninit {size : Nat} (frame : Frame) (v : Variable) : Obj size :=
  Vector.ofFn fun j => frame v j

inductive Programme where
  | coordinateur
  | prg1
  deriving DecidableEq, Repr

/-- The control points of a child: its MPI calls. -/
inductive Fils.Point where
  | init
  | commGetParent
  | commRank
  | recv
  | send
  | finalize
  deriving DecidableEq, Repr

structure Fils (P : Type) where
  point : Fils.Point
  temperature : Obj 4
  myrank : Obj 4
  returnValue : Obj 1
  parent : Mpi.Comm P
  faults : List Call
  stdout : List String

structure Textes where
  pasDePere : Int → String
  reception : Int → Int → String

def returnValue : Obj 1 := #v[1]

variable {P : Type}

/-- Entry of `main`.  `parent` is indeterminate until `MPI_Comm_get_parent`. -/
def filsEntry (frame : Frame) : Fils P where
  point := .init
  temperature := frame.uninit .temperature
  myrank := frame.uninit .myrank
  returnValue := returnValue
  parent := none
  faults := []
  stdout := []

/-- The call a child makes next.  `parent` is the communicator to the process
that spawned it and `rank` its rank among the children. -/
def fils (textes : Textes) (parent : Mpi.Comm P) (rank : Nat) (frame : Frame)
    (s : Fils P) : Action P Mpi.Message Call (Fils P) :=
  match s.point with
  | .init => .tau { s with point := .commGetParent }
  | .commGetParent => .tau { s with point := .commRank, parent := parent }
  | .commRank => Mpi.commRank .myrank s.myrank rank fun myrank f =>
      -- if (parent == MPI_COMM_NULL)
      if s.parent.isNone then
        { s with
          point := .finalize
          myrank := myrank
          faults := s.faults ++ f
          stdout := s.stdout ++ [textes.pasDePere myrank.toInt] }
      else
        { s with point := .recv, myrank := myrank, faults := s.faults ++ f }
  | .recv => Mpi.recv s.parent .temperature s.temperature 1 0 fun temperature f =>
      { s with
        point := .send
        temperature := temperature
        faults := s.faults ++ f
        stdout := s.stdout ++ [textes.reception s.myrank.toInt temperature.toInt] }
  | .send => Mpi.send s.parent .returnValue s.returnValue (frame .returnValue) 1 0
      fun f => { s with point := .finalize, faults := s.faults ++ f }
  | .finalize => .halt

def coordinateur : Mpi.Comm P → Nat → Frame → Fils P →
    Action P Mpi.Message Call (Fils P) :=
  fils
    { pasDePere := fun myrank => s!"Fils {myrank} : Coordinateur : Pas de pere !\n"
      reception := fun myrank temperature =>
        s!"Fils {myrank} : Coordinateur : Reception de la temperature {temperature}!\n" }

def prg1 : Mpi.Comm P → Nat → Frame → Fils P →
    Action P Mpi.Message Call (Fils P) :=
  fils
    { pasDePere := fun myrank => s!"Fils {myrank} : Prg1 : Pas de pere !\n"
      reception := fun myrank temperature =>
        s!"Fils {myrank} : Prg1 : Reception de la temperature de depart : {temperature} !\n" }

def code : Programme → Mpi.Comm P → Nat → Frame → Fils P →
    Action P Mpi.Message Call (Fils P)
  | .coordinateur => coordinateur
  | .prg1 => prg1

end ProgPara.Example
