import ProgPara.Example.Fils
import Mathlib.Algebra.GroupWithZero.Nat

/-!
# The father: `jalon1.c`

A step goes from one MPI call to the next; the loop tests, the assignments and
the `printf` between two calls belong to the step that leaves the first one.
-/

namespace ProgPara.Example

open Memory Network

def isspace (c : Char) : Bool := c = ' ' || (9 ≤ c.val && c.val ≤ 13)

/-- `atoi`: white space, an optional sign, and the digits up to the first other
character.  C leaves the value open when it does not fit in an `int`. -/
def atoi (s : String) : Int :=
  match s.toList.dropWhile isspace with
  | '-' :: l => -(Nat.ofDigitChars 10 (l.takeWhile Char.isDigit) 0 : Int)
  | '+' :: l => (Nat.ofDigitChars 10 (l.takeWhile Char.isDigit) 0 : Int)
  | l => (Nat.ofDigitChars 10 (l.takeWhile Char.isDigit) 0 : Int)

inductive Pere.Point where
  | init
  | commSize
  | commSpawnMultiple
  | sendAmbiante
  | sendDepart
  | recv
  | finalize
  deriving DecidableEq, Repr

structure Pere (P : Type) where
  point : Pere.Point
  i : Int
  nombre : Obj 4
  returnValue : Obj 1
  nombreProg1 : Int
  errcodes : Obj 20
  intercomm : Mpi.Comm P
  temperatureAmbiante : Obj 4
  temperatureDepart : Obj 4
  faults : List Call
  stdout : List String

def cmds : Vector (Option Programme) 3 := #v[some .coordinateur, some .prg1, none]

def np (nombreProg1 : Int) : Vector Int 2 := #v[1, nombreProg1]

def temperatureAmbiante : Int := 20

def temperatureDepart : Int := 18

variable {P : Type}

/-- Entry of `main`, up to the first MPI call.  `i` and `intercomm` are
indeterminate until the first loop and the spawn. -/
def pereEntry (argv1 : String) (frame : Frame) : Pere P where
  point := .init
  i := 0
  nombre := frame.uninit .nombre
  returnValue := Example.returnValue
  nombreProg1 := atoi argv1
  errcodes := frame.uninit .errcodes
  intercomm := none
  temperatureAmbiante := frame.uninit .temperatureAmbiante
  temperatureDepart := frame.uninit .temperatureDepart
  faults := []
  stdout := [s!"Pere : J'execute avec argc  = {argv1}\n"]

def boucleReception (s : Pere P) : Pere P :=
  if s.i < 4 then { s with point := .recv }
  else
    { s with
      point := .finalize
      stdout := s.stdout ++ ["Pere : Tous les chars ont été recus.\n"] }

def boucleEnvoi (s : Pere P) : Pere P :=
  if s.i < 4 then { s with point := .sendDepart }
  else boucleReception { s with i := 0 }

/-- The call the father makes next.  `enfants` is the intercommunicator that
the spawn gives back. -/
def jalon1 (enfants : Mpi.Intercomm P) (frame : Frame) (s : Pere P) :
    Action P Mpi.Message Call (Pere P) :=
  match s.point with
  | .init => .tau { s with point := .commSize }
  | .commSize => Mpi.commSize .nombre s.nombre 1 fun nombre f =>
      { s with point := .commSpawnMultiple, nombre := nombre, faults := s.faults ++ f }
  | .commSpawnMultiple =>
      Mpi.commSpawnMultiple .errcodes s.errcodes
        (((np s.nombreProg1).toList.take 2).map Int.toNat).sum fun errcodes f =>
          { s with
            point := .sendAmbiante
            errcodes := errcodes
            intercomm := some enfants
            temperatureAmbiante := .ofInt temperatureAmbiante
            temperatureDepart := .ofInt temperatureDepart
            faults := s.faults ++ f
            stdout := s.stdout ++ ["Pere : J'ai lance toutes les instances.\n"] }
  | .sendAmbiante =>
      Mpi.send s.intercomm .temperatureAmbiante s.temperatureAmbiante
        (frame .temperatureAmbiante) 1 0 fun f =>
          boucleEnvoi { s with i := 1, faults := s.faults ++ f }
  | .sendDepart =>
      Mpi.send s.intercomm .temperatureDepart s.temperatureDepart
        (frame .temperatureDepart) 1 s.i fun f =>
          boucleEnvoi
            { s with
              i := s.i + 1
              faults := s.faults ++ f
              stdout := s.stdout ++ [s!"Pere : Envoi vers {s.i}.\n"] }
  | .recv =>
      Mpi.recv s.intercomm .returnValue s.returnValue 1 s.i fun returnValue f =>
        boucleReception
          { s with
            i := s.i + 1
            returnValue := returnValue
            faults := s.faults ++ f
            stdout := s.stdout ++ [s!"Pere : reception du char provenant de {s.i}\n"] }
  | .finalize => .halt

end ProgPara.Example
