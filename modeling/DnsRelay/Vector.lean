import DnsRelay.Lib.Doubling
import DnsRelay.Protocol
import DnsRelay.Stl
set_option autoImplicit false

/-!
The growable vector of stl.c, in which packets keep their questions and records. Its block of
memory is written cell by cell, and the answers of the allocator are chosen by the environment.
-/

namespace DnsRelay

open Lib Lib.Exec

/-- `while (min_capacity > temp_capacity) temp_capacity <<= 1;` -/
def growCapacity (minCapacity : Int) : Nat → Int → Exec Int
  | 0, _ => .diverge
  | fuel+1, tempCapacity =>
      if minCapacity > tempCapacity then growCapacity minCapacity fuel (toInt32 (2*tempCapacity))
      else .ok tempCapacity

/-- Up to 2^30 the doubling stays within an `int`, and each turn comes closer by one at least. -/
theorem growCapacity_returns {c n fuel : Nat} (hc : 0 < c) (hn : n ≤ 1073741824)
    (hfuel : n ≤ c+fuel) : growCapacity n (fuel+1) c = .ok (doubled c n) := by
  induction fuel generalizing c with
  | zero => rw [growCapacity,if_neg (by omega),doubled_of_le hc hfuel]
  | succ fuel ih =>
    by_cases hlt : c < n
    · have hsmall : toInt32 (2*(c : Int)) = ((2*c : Nat) : Int) := by
        rw [toInt32,Int.bmod_eq_of_le (by omega) (by omega)]
        exact (Nat.cast_mul 2 c).symm
      rw [growCapacity,if_pos (by omega),hsmall,doubled_of_lt hc hlt]
      exact ih (by omega) (by omega)
    · rw [growCapacity,if_neg (by omega),doubled_of_le hc (by omega)]

/-- The block has a cell for each element that there is room for, empty until it is written. -/
structure Vector (α : Type) where
  elements : List (Option α)
  size : Int
  capacity : Int

namespace Vector
variable {α : Type}

def load (elements : List (Option α)) (i : Int) : Exec (Option α) :=
  if 0 ≤ i then
    match elements[i.toNat]? with
    | some cell => .ok cell
    | none => .fault .outOfBounds
  else .fault .outOfBounds

def store (elements : List (Option α)) (i : Int) (cell : Option α) : Exec (List (Option α)) :=
  if 0 ≤ i ∧ i.toNat < elements.length then .ok (elements.set i.toNat cell)
  else .fault .outOfBounds

/-- Source and destination may overlap. -/
def memmove (elements : List (Option α)) (dst src n : Int) : Exec (List (Option α)) :=
  if 0 ≤ dst ∧ 0 ≤ src ∧ 0 ≤ n ∧ (dst+n).toNat ≤ elements.length ∧
    (src+n).toNat ≤ elements.length then
    .ok (elements.take dst.toNat ++ (elements.drop src.toNat).take n.toNat ++
      elements.drop (dst+n).toNat)
  else .fault .outOfBounds

/-- The old cells come first. -/
def realloc (granted : Bool) (elements : List (Option α)) (n : Int) :
    Option (List (Option α)) :=
  if granted then
    some (elements.take n.toNat ++ List.replicate (n.toNat-elements.length) none)
  else none

/-- The return value 0 is `false`. -/
def grow (fuel : Nat) (granted : Bool) (vector : Vector α) (minCapacity : Int) :
    Exec (Bool × Vector α) :=
  if minCapacity ≤ vector.capacity then .ok (true,vector)
  else do
    let tempCapacity ← growCapacity minCapacity fuel
      (if vector.capacity ≤ 0 then 1 else vector.capacity)
    match realloc granted vector.elements tempCapacity with
    | none => .ok (false,vector)
    | some elements => .ok (true,{ vector with elements, capacity := tempCapacity })

/-- Two blocks are asked for, and `none` is NULL. -/
def vectorCreate (grantedVector grantedElements : Bool) (initCapacity : Int) : Option (Vector α) :=
  let initCapacity := if initCapacity ≤ 0 then 1 else initCapacity
  if grantedVector && grantedElements then
    some ⟨List.replicate initCapacity.toNat none,0,initCapacity⟩
  else none

def vectorAdd (fuel : Nat) (granted : Bool) (vector : Option (Vector α)) (element : α) :
    Exec (Option (Vector α)) :=
  match vector with
  | none => .ok none
  | some vector => do
      let (grown,vector) ← grow fuel granted vector (vector.size+1)
      if grown then do
        let elements ← store vector.elements vector.size (some element)
        .ok (some { vector with elements, size := vector.size+1 })
      else .ok (some vector)

/-- `for (int i = size - 1; i >= index; i--) elements[i + 1] = elements[i];` with `i+1-index` turns
to go. -/
def shiftUp (index : Int) : Nat → List (Option α) → Exec (List (Option α))
  | 0, elements => .ok elements
  | turns+1, elements => do
      let cell ← load elements (index+turns)
      let elements ← store elements (index+turns+1) cell
      shiftUp index turns elements

def vectorInsert (fuel : Nat) (granted : Bool) (vector : Option (Vector α)) (element : α)
    (index : Int) : Exec (Option (Vector α)) :=
  match vector with
  | none => .ok none
  | some vector =>
      if index < 0 ∨ index > vector.size then .ok (some vector)
      else do
        let (grown,vector) ← grow fuel granted vector (vector.size+1)
        if grown then do
          let elements ← shiftUp index (vector.size-index).toNat vector.elements
          let elements ← store elements index (some element)
          .ok (some { vector with elements, size := vector.size+1 })
        else .ok (some vector)

def vectorRemove (vector : Option (Vector α)) (index : Int) : Exec (Option (Vector α)) :=
  match vector with
  | none => .ok none
  | some vector =>
      if index ≥ vector.size ∨ index < 0 then .ok (some vector)
      else do
        let elements ← memmove vector.elements index (index+1) (vector.size-index-1)
        .ok (some { vector with elements, size := vector.size-1 })

/-- A cell that was never written holds no pointer. -/
def vectorGet (vector : Option (Vector α)) (index : Int) : Exec (Option α) :=
  match vector with
  | none => .ok none
  | some vector =>
      if index ≥ vector.size ∨ index < 0 then .ok none
      else do
        match ← load vector.elements index with
        | some element => .ok (some element)
        | none => .fault .wildPointer

def vectorSize : Option (Vector α) → Int
  | none => 0
  | some vector => vector.size

end Vector

/-- A call with what the allocator answers, should it be asked. -/
inductive VectorCall (α : Type) where
  | add (element : α) (granted : Bool)
  | insert (element : α) (index : Int) (granted : Bool)
  | remove (index : Int)
  | get (index : Int)
  | size

namespace VectorCall
variable {α : Type}

def adds : VectorCall α → Bool
  | .add _ _ => true
  | .insert _ _ _ => true
  | _ => false

def isGranted : VectorCall α → Bool
  | .add _ granted => granted
  | .insert _ _ granted => granted
  | _ => true

def onList (l : List α) : VectorCall α → List α
  | .add x _ => l ++ [x]
  | .insert x i _ => if 0 ≤ i ∧ i ≤ l.length then l.insertIdx i.toNat x else l
  | .remove i => if 0 ≤ i ∧ i < l.length then l.eraseIdx i.toNat else l
  | _ => l

end VectorCall

inductive VectorReply (α : Type) where
  | void
  | element (found : Option α)
  | size (n : Int)

namespace Vector
variable {α : Type}

def apply (fuel : Nat) (vector : Option (Vector α)) :
    VectorCall α → Exec (VectorReply α × Option (Vector α))
  | .add element granted => do
      let vector ← vectorAdd fuel granted vector element
      .ok (.void,vector)
  | .insert element index granted => do
      let vector ← vectorInsert fuel granted vector element index
      .ok (.void,vector)
  | .remove index => do
      let vector ← vectorRemove vector index
      .ok (.void,vector)
  | .get index => do
      let found ← vectorGet vector index
      .ok (.element found,vector)
  | .size => .ok (.size (vectorSize vector),vector)

def run (fuel : Nat) (vector : Option (Vector α)) :
    List (VectorCall α) → Exec (List (VectorReply α) × Option (Vector α))
  | [] => .ok ([],vector)
  | call :: calls => do
      let (reply,vector) ← apply fuel vector call
      let (replies,vector) ← run fuel vector calls
      .ok (reply :: replies,vector)

end Vector

end DnsRelay
