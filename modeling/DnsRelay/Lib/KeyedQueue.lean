import Mathlib.Logic.Function.Basic
set_option autoImplicit false

/-!
A priority queue whose elements are added under keys, as a finite map from the
keys to the data: what each call may answer, and what it leaves.
-/

namespace DnsRelay.Lib.KeyedQueue

variable {κ δ : Type} [DecidableEq κ]

inductive Op (κ δ : Type) where
  | add (key : κ) (data : δ)
  | remove (key : κ)
  | peek
  | pop

/-- The queue has this data under the key, and none that must go before it. -/
def Least (r : δ → δ → Prop) (S : κ → Option δ) (key : κ) (data : δ) : Prop :=
  S key = some data ∧ ∀ k d, S k = some d → r data d

/-- A call with its answer. Among equals any may be the first. -/
inductive Step (r : δ → δ → Prop) : (κ → Option δ) → Op κ δ × Option δ → (κ → Option δ) → Prop where
  | add (S : κ → Option δ) (key : κ) (data : δ) (unused : S key = none) :
      Step r S (.add key data,none) (Function.update S key (some data))
  | remove (S : κ → Option δ) (key : κ) : Step r S (.remove key,none) (Function.update S key none)
  | peekNone (S : κ → Option δ) (empty : ∀ k, S k = none) : Step r S (.peek,none) S
  | peek (S : κ → Option δ) (key : κ) (data : δ) (least : Least r S key data) :
      Step r S (.peek,some data) S
  | popNone (S : κ → Option δ) (empty : ∀ k, S k = none) : Step r S (.pop,none) S
  | pop (S : κ → Option δ) (key : κ) (data : δ) (least : Least r S key data) :
      Step r S (.pop,some data) (Function.update S key none)

end DnsRelay.Lib.KeyedQueue
