import DnsRelay.Protocol
import DnsRelay.HashMap
set_option autoImplicit false

/-! The hash and comparison functions that stl.h predefines. -/

namespace DnsRelay

def toInt32 (n : Int) : Int := n.bmod 4294967296

def hashFuncUint64 (key : UInt64) : Int :=
  let x := key
  let x := (x ^^^ (x >>> 30))*0xbf58476d1ce4e5b9
  let x := (x ^^^ (x >>> 27))*0x94d049bb133111eb
  let x := x ^^^ (x >>> 31)
  toInt32 x.toNat

def compareUint (a b : UInt64) : Int := if a > b then 1 else if a = b then 0 else -1

def hashFuncStr (key : Bytes) : Int :=
  key.foldl (fun hash c => toInt32 (toInt32 (hash*32)+hash+c.toNat)) 5381

def strcmp : Bytes → Bytes → Int
  | [], [] => 0
  | [], _ :: _ => -1
  | _ :: _, [] => 1
  | a :: as, b :: bs => if a = b then strcmp as bs else if a < b then -1 else 1

def cstrHashing : Hashing Bytes := ⟨hashFuncStr,strcmp⟩

/-- A 16-bit key goes through `void *` to the 64-bit functions. -/
def idHashing : Hashing UInt16 :=
  ⟨fun key => hashFuncUint64 key.toUInt64,fun a b => compareUint a.toUInt64 b.toUInt64⟩

theorem strcmp_eq_zero (a b : Bytes) : strcmp a b = 0 ↔ a = b := by
  induction a generalizing b with
  | nil => cases b <;> simp [strcmp]
  | cons c as ih =>
    cases b with
    | nil => simp [strcmp]
    | cons d bs =>
      unfold strcmp
      split
      · rename_i hcd
        simp [ih,hcd]
      · rename_i hcd
        split <;> simp [hcd]

theorem compareUint_eq_zero (a b : UInt16) :
    compareUint a.toUInt64 b.toUInt64 = 0 ↔ a = b := by
  have hinj : a.toUInt64 = b.toUInt64 ↔ a = b := by
    constructor
    · intro h
      have := congrArg UInt64.toNat h
      exact UInt16.toNat_inj.mp (by simpa using this)
    · intro h
      rw [h]
  unfold compareUint
  split
  · rename_i hgt
    simp only [Int.one_ne_zero,false_iff]
    intro h
    subst h
    exact absurd hgt (UInt64.lt_irrefl _)
  · split <;> simp_all

theorem lawful_of_eq {κ : Type} {H : Hashing κ}
    (h : ∀ a b, H.comparator a b = 0 ↔ a = b) : H.Lawful where
  refl a := (h a a).mpr rfl
  symm a b hab := (h b a).mpr ((h a b).mp hab).symm
  trans a b c hab hbc := (h a c).mpr (((h a b).mp hab).trans ((h b c).mp hbc))
  hash a b hab := by rw [(h a b).mp hab]

theorem cstrHashing_lawful : cstrHashing.Lawful := lawful_of_eq strcmp_eq_zero

theorem idHashing_lawful : idHashing.Lawful := lawful_of_eq compareUint_eq_zero

end DnsRelay
