import Mathlib.Data.List.Basic
import ProgPara.Sequence.Distance

/-!
# Fragments that arrived too early

A peer's fragments are matched in the order of their sequence numbers.  One
that arrives ahead of its turn waits in `frags_cant_match`, a doubly linked
ring of runs: the elements of the ring are linked horizontally, and from each
hangs the ring of the fragments that continue it without a gap.

The ring is the list of its elements read from the one `*queue` points to, and
the ring below an element is the list `range`.  A pointer into the ring is a
`Cursor`.  The comparisons of the code are made on `int`, hence on the natural
numbers here, and its `uint16_t` variables are `UInt16`.
-/

namespace ProgPara.Ob1

inductive HdrType where
  | match_
  | rndv
  | rget
  deriving Repr, DecidableEq

/-- `mca_pml_ob1_recv_frag_t`: the match header and the data behind it. -/
structure RecvFrag (M : Type*) where
  hdrType : HdrType
  hdrCtx : UInt16
  hdrSrc : Nat
  hdrTag : Int
  hdrSeq : UInt16
  segments : M
  deriving Repr, DecidableEq

/-- An element of the ring with the fragments that follow it in sequence. -/
structure Run (M : Type*) where
  frag : RecvFrag M
  range : List (RecvFrag M)
  deriving Repr, DecidableEq

variable {M : Type*}

namespace Run

def seq (n : Run M) : Nat := n.frag.hdrSeq.toNat

/-- The last number of the run: `range->opal_list_prev`, or the element itself. -/
def upper (n : Run M) : Nat := (n.range.getLastD n.frag).hdrSeq.toNat

def frags (n : Run M) : List (RecvFrag M) := n.frag :: n.range

def merge (n next : Run M) : Run M := { n with range := n.range ++ next.frags }

end Run

def frags (queue : List (Run M)) : List (RecvFrag M) := queue.flatMap Run.frags

@[simp] theorem frags_nil : frags ([] : List (Run M)) = [] := rfl

@[simp] theorem frags_cons (n : Run M) (queue : List (Run M)) :
    frags (n :: queue) = n.frags ++ frags queue := rfl

@[simp] theorem frags_append (q₁ q₂ : List (Run M)) :
    frags (q₁ ++ q₂) = frags q₁ ++ frags q₂ := List.flatMap_append

@[simp] theorem Run.frags_mk (f : RecvFrag M) (range : List (RecvFrag M)) :
    Run.frags ⟨f, range⟩ = f :: range := rfl

structure Cursor (M : Type*) where
  before : List (Run M)
  node : Run M
  after : List (Run M)

/-- The `do … while` of a fragment below the head: back from the head, which is
last in `rest` when that list is read from `prior` on. -/
def searchBackward (seq : UInt16) : UInt16 → List (Run M) → Run M → List (Run M) →
    Cursor M
  | _, [], prior, after => ⟨[], prior, after⟩
  | d1, p :: rest, prior, after =>
      let d2 := prior.frag.hdrSeq - seq
      if seq.toNat < prior.seq ∧ d2.toNat < d1.toNat then
        searchBackward seq d2 rest p (prior :: after)
      else ⟨(p :: rest).reverse, prior, after⟩

/-- The `while` of a fragment above the head.  It stops at the last element at
the latest: the head, which is next there, is not above it. -/
def searchForward (seq : UInt16) (before : List (Run M)) (prior : Run M) :
    List (Run M) → Cursor M
  | [] => ⟨before, prior, []⟩
  | next :: after =>
      if prior.seq < seq.toNat ∧ next.seq < seq.toNat ∧ prior.seq < next.seq then
        searchForward seq (before ++ [prior]) next after
      else ⟨before, prior, next :: after⟩

def searchPrior (seq : UInt16) (head : Run M) (tail : List (Run M)) : Cursor M :=
  if seq.toNat < head.seq then
    match tail.reverse with
    | [] => ⟨[], head, []⟩
    | last :: rest =>
        searchBackward seq (head.frag.hdrSeq - seq) (rest ++ [head]) last []
  else searchForward seq [] head tail

/-- The code from `merge_ranges:` on.  When the element after the last one is
merged, which is the head, `*queue` moves to what it is merged into. -/
def mergeRanges (c : Cursor M) : List (Run M) :=
  match c.after, c.before with
  | next :: after, before =>
      if c.node.upper + 1 = next.seq then before ++ c.node.merge next :: after
      else before ++ c.node :: next :: after
  | [], next :: before =>
      if c.node.upper + 1 = next.seq then c.node.merge next :: before
      else next :: before ++ [c.node]
  | [], [] => [c.node]

def absDiff (a b : Nat) : Nat := ((a : Int) - b).natAbs

/-- `append_frag_to_ordered_list`, `seq` being the number expected next. -/
def appendFragToOrderedList (queue : List (Run M)) (frag : RecvFrag M) (seq : UInt16) :
    List (Run M) :=
  match queue with
  | [] => [⟨frag, []⟩]
  | head :: tail =>
      let parent := searchPrior frag.hdrSeq head tail
      if parent.node.upper + 1 = frag.hdrSeq.toNat then
        mergeRanges
          { parent with node.range := parent.node.range ++ [frag] }
      else if seq.toNat ≤ frag.hdrSeq.toNat ∧
          absDiff frag.hdrSeq.toNat seq.toNat < absDiff head.seq seq.toNat then
        mergeRanges ⟨[], ⟨frag, []⟩, parent.after ++ parent.before ++ [parent.node]⟩
      else mergeRanges ⟨parent.before ++ [parent.node], ⟨frag, []⟩, parent.after⟩

/-- `remove_head_from_ordered_list`: the first of the head's range takes its
place in the ring. -/
def removeHeadFromOrderedList : List (Run M) → Option (RecvFrag M × List (Run M))
  | [] => none
  | ⟨frag, []⟩ :: tail => some (frag, tail)
  | ⟨frag, r :: range⟩ :: tail => some (frag, ⟨r, range⟩ :: tail)

def checkCantmatchForMatch (expected : UInt16) (queue : List (Run M)) :
    Option (RecvFrag M × List (Run M)) :=
  match queue with
  | [] => none
  | head :: _ =>
      if head.seq = expected.toNat then removeHeadFromOrderedList queue else none

theorem removeHead_frags {queue queue' : List (Run M)} {f : RecvFrag M}
    (h : removeHeadFromOrderedList queue = some (f, queue')) :
    frags queue = f :: frags queue' := by
  unfold removeHeadFromOrderedList at h
  split at h
  · cases h
  · cases h
    simp
  · cases h
    simp

theorem checkCantmatch_frags {e : UInt16} {queue queue' : List (Run M)}
    {f : RecvFrag M} (h : checkCantmatchForMatch e queue = some (f, queue')) :
    frags queue = f :: frags queue' := by
  unfold checkCantmatchForMatch at h
  split at h
  · cases h
  · split at h
    · exact removeHead_frags h
    · cases h

end ProgPara.Ob1
