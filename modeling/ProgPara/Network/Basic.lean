import Mathlib.Logic.Function.Basic
import Mathlib.Logic.Relation
import Mathlib.Data.Set.Basic

/-!
# Networks of communicating processes

Deterministic processes joined by one FIFO channel for each ordered pair.  A
receive names its sender and blocks until a message of that sender is there.
A standard-mode send either hands its message over at once or keeps the sender
inside the call until the receiver has taken it; the choice is made at each
send.  A process may launch the processes that name it as their parent, and a
failing call stops the whole network.

`Program.event` computes what a process does next and `Program.apply` what
that does to the network, so that every property of a step splits into one
about the choice and one about the effect.
-/

namespace ProgPara.Network

open Function Relation

inductive Action (P M E S : Type*) where
  | halt
  | abort (e : E)
  | tau (s : S)
  | spawn (s : S)
  | send (q : P) (m : M) (s : S)
  | recv (q : P) (k : M → S)

def Action.After {P M E S : Type*} : Action P M E S → S → Prop
  | .tau s, s' => s' = s
  | .spawn s, s' => s' = s
  | .send _ _ s, s' => s' = s
  | .recv _ k, s' => ∃ m, s' = k m
  | _, _ => False

/-- Where a process stands.  In `blocked q s` it is inside a send to `q` that
waits for its receive, and it resumes in `s`. -/
inductive Status (P S : Type*) where
  | absent
  | ready (s : S)
  | blocked (q : P) (s : S)

/-- The code of every process, its first local state, and the process that
launches it, if any. -/
structure Program (P M E : Type*) (S : P → Type*) where
  act : (p : P) → S p → Action P M E (S p)
  entry : (p : P) → S p
  parent : P → Option P

/-- `chan p q` holds the messages from `p` to `q` in flight, oldest first;
`sent` and `recd` are the histories of the same channel. -/
@[ext] structure Config (P M : Type*) (S : P → Type*) where
  status : (p : P) → Status P (S p)
  chan : P → P → List M
  sent : P → P → List M
  recd : P → P → List M

@[ext] structure State (P M E : Type*) (S : P → Type*) where
  config : Config P M S
  aborted : Option (P × E)

inductive Transfer (P M : Type*) where
  | quiet
  | out (q : P) (m : M)
  | inp (q : P) (m : M)

structure Event (P M S : Type*) where
  next : Status P S
  launches : Bool := false
  transfer : Transfer P M := .quiet

variable {P M E : Type*} {S : P → Type*}

/-- The status a blocked sender has once its send has returned. -/
def Status.settled {T : Type*} : Status P T → Status P T
  | .absent => .absent
  | .ready s => .ready s
  | .blocked _ s => .ready s

@[simp] theorem Status.settled_absent {T : Type*} :
    (Status.absent : Status P T).settled = .absent := rfl

@[simp] theorem Status.settled_ready {T : Type*} (s : T) :
    (Status.ready s : Status P T).settled = .ready s := rfl

@[simp] theorem Status.settled_blocked {T : Type*} (q : P) (s : T) :
    (Status.blocked q s).settled = .ready s := rfl

theorem Status.settled_eq_absent {T : Type*} {st : Status P T} :
    st.settled = .absent ↔ st = .absent := by
  cases st <;> simp

theorem Status.settled_eq_ready {T : Type*} {st : Status P T} {s : T} :
    st.settled = .ready s ↔ st = .ready s ∨ ∃ q, st = .blocked q s := by
  cases st <;> simp

variable [DecidableEq P]

/-! ## Effects -/

def modifyAt (p q : P) (f : List M → List M) (ch : P → P → List M) :
    P → P → List M :=
  fun a b => if a = p ∧ b = q then f (ch a b) else ch a b

@[simp] theorem modifyAt_self (p q : P) (f : List M → List M)
    (ch : P → P → List M) : modifyAt p q f ch p q = f (ch p q) := by
  simp [modifyAt]

theorem modifyAt_of_ne {p q a b : P} (h : ¬(a = p ∧ b = q))
    (f : List M → List M) (ch : P → P → List M) :
    modifyAt p q f ch a b = ch a b := if_neg h

theorem eq_modifyAt {p q : P} {f : List M → List M} {ch ch' : P → P → List M}
    (hself : ch' p q = f (ch p q))
    (hne : ∀ a b, ¬(a = p ∧ b = q) → ch' a b = ch a b) : ch' = modifyAt p q f ch := by
  funext a b
  by_cases hab : a = p ∧ b = q
  · obtain ⟨rfl, rfl⟩ := hab
    rw [modifyAt_self, hself]
  · rw [modifyAt_of_ne hab, hne a b hab]

namespace Transfer

def chan (p : P) (ch : P → P → List M) : Transfer P M → P → P → List M
  | .quiet => ch
  | .out q m => modifyAt p q (· ++ [m]) ch
  | .inp q _ => modifyAt q p List.tail ch

def sent (p : P) (h : P → P → List M) : Transfer P M → P → P → List M
  | .out q m => modifyAt p q (· ++ [m]) h
  | _ => h

def recd (p : P) (h : P → P → List M) : Transfer P M → P → P → List M
  | .inp q m => modifyAt q p (· ++ [m]) h
  | _ => h

theorem sent_ne_nil {p a b : P} {h : P → P → List M} {t : Transfer P M}
    (hab : h a b ≠ []) : t.sent p h a b ≠ [] := by
  cases t with
  | out q m =>
      simp only [sent, modifyAt]
      split
      · simp
      · exact hab
  | _ => exact hab

end Transfer

namespace Program

variable (prog : Program P M E S)

def launch (p : P) (st : (q : P) → Status P (S q)) (q : P) : Status P (S q) :=
  match st q with
  | .absent => if prog.parent q = some p then .ready (prog.entry q) else .absent
  | s => s

variable {prog} in
theorem launch_of_absent {p q : P} {st : (q : P) → Status P (S q)}
    (h : st q = .absent) : prog.launch p st q =
      if prog.parent q = some p then .ready (prog.entry q) else .absent := by
  simp [launch, h]

variable {prog} in
theorem launch_of_ne_absent {p q : P} {st : (q : P) → Status P (S q)}
    (h : st q ≠ .absent) : prog.launch p st q = st q := by
  unfold launch
  split <;> simp_all

/-- The step process `p` takes next, if any.  `buffered` is the choice made for
a send.  A blocked sender resumes once its message, the last one it put in the
channel, has been taken: when the channel is empty. -/
def event (buffered : Bool) (p : P) (c : Config P M S) :
    Option (Event P M (S p)) :=
  match c.status p with
  | .absent => none
  | .blocked q s =>
      if (c.chan p q).isEmpty then some { next := .ready s } else none
  | .ready s =>
      match prog.act p s with
      | .halt => none
      | .abort _ => none
      | .tau s' => some { next := .ready s' }
      | .spawn s' => some { next := .ready s', launches := true }
      | .send q m s' =>
          some { next := if buffered then .ready s' else .blocked q s'
                 transfer := .out q m }
      | .recv q k =>
          (c.chan q p).head?.map fun m =>
            { next := .ready (k m), transfer := .inp q m }

def apply (p : P) (e : Event P M (S p)) (c : Config P M S) : Config P M S where
  status := update (if e.launches then prog.launch p c.status else c.status) p e.next
  chan := e.transfer.chan p c.chan
  sent := e.transfer.sent p c.sent
  recd := e.transfer.recd p c.recd

@[simp] theorem apply_status_self (p : P) (e : Event P M (S p)) (c : Config P M S) :
    (prog.apply p e c).status p = e.next := by
  simp [apply]

variable {prog} in
theorem apply_status_of_ne {p q : P} (hq : q ≠ p) (e : Event P M (S p))
    (c : Config P M S) : (prog.apply p e c).status q =
      if e.launches then prog.launch p c.status q else c.status q := by
  simp only [apply, update_of_ne hq]
  split <;> rfl

def aborts (p : P) (c : Config P M S) : Option E :=
  match c.status p with
  | .ready s =>
      match prog.act p s with
      | .abort e => some e
      | _ => none
  | _ => none

def step (buffered : Bool) (p : P) (g : State P M E S) : Option (State P M E S) :=
  match g.aborted with
  | some _ => none
  | none =>
      match prog.aborts p g.config with
      | some e => some ⟨g.config, some (p, e)⟩
      | none => (prog.event buffered p g.config).map fun e =>
          ⟨prog.apply p e g.config, none⟩

def init : State P M E S where
  config :=
    { status := fun p =>
        if prog.parent p = none then .ready (prog.entry p) else .absent
      chan := fun _ _ => []
      sent := fun _ _ => []
      recd := fun _ _ => [] }
  aborted := none

/-- The steps of the network when the choices of its sends range over `modes`. -/
def Step (modes : Set Bool) (g g' : State P M E S) : Prop :=
  ∃ b ∈ modes, ∃ p, prog.step b p g = some g'

def Reachable (modes : Set Bool) (g : State P M E S) : Prop :=
  ReflTransGen (prog.Step modes) prog.init g

def Terminal (modes : Set Bool) (g : State P M E S) : Prop :=
  ∀ g', ¬prog.Step modes g g'

def run : List (P × Bool) → State P M E S → Option (State P M E S)
  | [], g => some g
  | (p, b) :: sched, g => (prog.step b p g).bind (run sched)

end Program

end ProgPara.Network
