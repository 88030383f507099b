import Mathlib.Data.List.Basic

/-!
# C objects as byte arrays

A variable whose address is handed out is an array of bytes of its C size.  An
access asks for a number of bytes from the start of the object and is checked
against that size.  An access that does not fit takes the out-of-bounds branch:
a read goes on with the bytes found behind the object, and a write loses the
bytes that do not fit, whatever they overwrite.
-/

namespace ProgPara.Memory

abbrev Obj (size : Nat) := Vector UInt8 size

namespace Obj

variable {size : Nat}

def read? (o : Obj size) (k : Nat) : Option (List UInt8) :=
  if k ≤ size then some (o.toList.take k) else none

def blit (o : Obj size) (l : List UInt8) : Obj size :=
  Vector.ofFn fun i => l.getD i o[i]

def write? (o : Obj size) (l : List UInt8) : Option (Obj size) :=
  if l.length ≤ size then some (o.blit l) else none

/-- Read `k` bytes, and tell whether the read left the object; `frame j` is the
byte found `j` bytes after the start of the object. -/
def read (frame : Nat → UInt8) (o : Obj size) (k : Nat) : List UInt8 × Bool :=
  match o.read? k with
  | some l => (l, false)
  | none => (o.toList ++ (List.range (k - size)).map fun j => frame (size + j), true)

/-- Write `l`, and tell whether the write left the object. -/
def write (o : Obj size) (l : List UInt8) : Obj size × Bool :=
  match o.write? l with
  | some o' => (o', false)
  | none => (o.blit l, true)

theorem read_fst_of_le {frame : Nat → UInt8} {o : Obj size} {k : Nat} (h : k ≤ size) :
    (o.read frame k).1 = o.toList.take k := by
  simp [read, read?, h]

theorem read_fst_of_lt {frame : Nat → UInt8} {o : Obj size} {k : Nat} (h : size < k) :
    (o.read frame k).1 =
      o.toList ++ (List.range (k - size)).map fun j => frame (size + j) := by
  simp [read, read?, Nat.not_le.mpr h]

theorem read_snd (frame : Nat → UInt8) (o : Obj size) (k : Nat) :
    (o.read frame k).2 = decide (size < k) := by
  by_cases h : k ≤ size
  · simp [read, read?, h]
  · simp [read, read?, h, Nat.not_le.mp h]

theorem write_eq (o : Obj size) (l : List UInt8) :
    o.write l = (o.blit l, decide (size < l.length)) := by
  by_cases h : l.length ≤ size
  · simp [write, write?, h]
  · simp [write, write?, h, Nat.not_le.mp h]

theorem toList_blit {o : Obj size} {l : List UInt8} (h : size ≤ l.length) :
    (o.blit l).toList = l.take size := by
  apply List.ext_getElem
  · simp [h]
  · intro i hi _
    have hlt : i < size := by simpa using hi
    have hil : i < l.length := by omega
    simp [blit, List.getElem?_eq_getElem hil]

end Obj

/-! ## The C type `int` -/

def intBytes (x : Int) : List UInt8 :=
  let v := (BitVec.ofInt 32 x).toNat
  [UInt8.ofNat v, UInt8.ofNat (v / 256), UInt8.ofNat (v / 65536),
    UInt8.ofNat (v / 16777216)]

def Obj.toInt (o : Obj 4) : Int :=
  (BitVec.ofNat 32 (o[0].toNat + 256 * o[1].toNat + 65536 * o[2].toNat +
    16777216 * o[3].toNat)).toInt

def Obj.ofInt (x : Int) : Obj 4 := ⟨(intBytes x).toArray, rfl⟩

@[simp] theorem length_intBytes (x : Int) : (intBytes x).length = 4 := rfl

@[simp] theorem Obj.toList_ofInt (x : Int) : (Obj.ofInt x).toList = intBytes x := rfl

theorem Obj.toInt_of_toList {o : Obj 4} {x : Int} (h : o.toList = intBytes x) :
    o.toInt = (BitVec.ofInt 32 x).toInt := by
  obtain rfl : o = Obj.ofInt x := by
    apply Vector.toList_inj.mp
    rw [h, toList_ofInt]
  have hlt := (BitVec.ofInt 32 x).isLt
  rw [toInt]
  congr 1
  apply BitVec.eq_of_toNat_eq
  simp only [ofInt, intBytes, Vector.getElem_mk, List.getElem_toArray,
    List.getElem_cons_zero, List.getElem_cons_succ, UInt8.toNat_ofNat',
    BitVec.toNat_ofNat]
  omega

end ProgPara.Memory
