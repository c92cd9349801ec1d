/-
Integers of fixed width.

An operation of a machine type is computed on the integers and checked: a result that is no
value of the type is a fault.  Conversions between the types are checked in the same way, and
without the checks a result is wrapped around.

* `IntType.make_eq`, `IntType.make_fault` — an operation succeeds where its result fits;
* `IntType.wrap_eq` — nothing is wrapped where the result fits.
-/
import Mathlib.Algebra.Order.Group.Unbundled.Int
import Mathlib.Tactic.Common

namespace MachineInts

/-- A type of machine integers, by its least and its greatest value. -/
structure IntType where
  least : ℤ
  greatest : ℤ

/-- What goes wrong in checked arithmetic: a result, or a conversion that is to succeed. -/
inductive Fault where
  | overflow
  | conversion
  deriving DecidableEq

namespace IntType

def u32 : IntType := ⟨0, 2 ^ 32 - 1⟩

def u64 : IntType := ⟨0, 2 ^ 64 - 1⟩

def i32 : IntType := ⟨-2 ^ 31, 2 ^ 31 - 1⟩

def i64 : IntType := ⟨-2 ^ 63, 2 ^ 63 - 1⟩

def i128 : IntType := ⟨-2 ^ 127, 2 ^ 127 - 1⟩

variable (t : IntType)

/-- The integer is a value of the type. -/
def Fits (n : ℤ) : Prop := t.least ≤ n ∧ n ≤ t.greatest

instance (n : ℤ) : Decidable (t.Fits n) := inferInstanceAs (Decidable (_ ∧ _))

/-- The checked result of an operation. -/
def make (n : ℤ) : Except Fault ℤ := if t.Fits n then .ok n else .error .overflow

def add (a b : ℤ) : Except Fault ℤ := t.make (a + b)

def sub (a b : ℤ) : Except Fault ℤ := t.make (a - b)

def mul (a b : ℤ) : Except Fault ℤ := t.make (a * b)

def abs (a : ℤ) : Except Fault ℤ := t.make |a|

/-- A conversion into the type. -/
def tryFrom (n : ℤ) : Option ℤ := if t.Fits n then some n else none

/-- The result of an operation without checks. -/
def wrap (n : ℤ) : ℤ := (n - t.least) % (t.greatest - t.least + 1) + t.least

variable {t}

/-- An operation succeeds where its result fits. -/
theorem make_eq {n : ℤ} (h : t.Fits n) : t.make n = .ok n := if_pos h

theorem make_fault {n : ℤ} (h : ¬ t.Fits n) : t.make n = .error .overflow := if_neg h

theorem add_eq {a b : ℤ} (h : t.Fits (a + b)) : t.add a b = .ok (a + b) := make_eq h

theorem sub_eq {a b : ℤ} (h : t.Fits (a - b)) : t.sub a b = .ok (a - b) := make_eq h

theorem mul_eq {a b : ℤ} (h : t.Fits (a * b)) : t.mul a b = .ok (a * b) := make_eq h

theorem abs_eq {a : ℤ} (h : t.Fits |a|) : t.abs a = .ok |a| := make_eq h

theorem tryFrom_eq {n : ℤ} (h : t.Fits n) : t.tryFrom n = some n := if_pos h

/-- A result that fits is not wrapped. -/
theorem wrap_eq {n : ℤ} (h : t.Fits n) : t.wrap n = n := by
  obtain ⟨hleast, hgreatest⟩ := h
  rw [wrap, Int.emod_eq_of_lt (by omega) (by omega)]
  omega

end IntType

end MachineInts
