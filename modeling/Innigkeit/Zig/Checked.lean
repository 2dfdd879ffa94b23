import Mathlib.Algebra.Order.Ring.Nat

/-!
Computations of a safety-checked build. A value is either produced or the
program traps: an integer operation left the range of its type, a checked cast
did not fit, an assertion failed, an index or an optional was invalid, or a
branch that is not implemented was reached. Machine words are natural numbers;
the width is checked where an operation could leave it.
-/

namespace Zig

inductive Trap where
  | overflow
  | cast
  | assertion
  | bounds
  | unwrapNull
  | panic
  deriving DecidableEq, Repr

abbrev Checked (α : Type*) := Except Trap α

section

universe u
variable {α β : Type u}

@[simp] theorem pure_eq_ok (a : α) : (pure a : Checked α) = .ok a := rfl

@[simp] theorem throw_eq_error (t : Trap) : (throw t : Checked α) = .error t := rfl

@[simp] theorem ok_bind (a : α) (f : α → Checked β) : (Except.ok a >>= f : Checked β) = f a := rfl

@[simp] theorem error_bind (t : Trap) (f : α → Checked β) :
    (Except.error t >>= f : Checked β) = .error t := rfl

variable {x : Checked α} {f : α → Checked β}

theorem bind_eq_ok {b : β} : (x >>= f) = .ok b ↔ ∃ a, x = .ok a ∧ f a = .ok b := by
  cases x with
  | error t => simp
  | ok a => simp

theorem toOption_eq_some {a : α} : x.toOption = some a ↔ x = .ok a := by
  cases x with
  | error t => simp [Except.toOption]
  | ok b => simp [Except.toOption]

/-- The computation returns, whatever it returns. -/
def Checked.Returns (x : Checked α) : Prop := ∃ a, x = .ok a

@[simp] theorem returns_ok (a : α) : Checked.Returns (.ok a : Checked α) := ⟨a, rfl⟩

@[simp] theorem not_returns_error (t : Trap) : ¬ Checked.Returns (.error t : Checked α) := by
  rintro ⟨a, h⟩
  cases h

instance (x : Checked α) : Decidable x.Returns :=
  match x with
  | .ok a => .isTrue ⟨a, rfl⟩
  | .error t => .isFalse (not_returns_error t)

theorem returns_bind : Checked.Returns (x >>= f) ↔ ∃ a, x = .ok a ∧ Checked.Returns (f a) := by
  cases x with
  | error t => simp
  | ok a => simp

end

/-- `a + b` in an unsigned type of `w` bits. -/
def add (w a b : ℕ) : Checked ℕ :=
  if a + b < 2 ^ w then .ok (a + b) else .error .overflow

def sub (a b : ℕ) : Checked ℕ :=
  if b ≤ a then .ok (a - b) else .error .overflow

/-- `@intCast` into an unsigned type of `w` bits. -/
def intCast (w a : ℕ) : Checked ℕ :=
  if a < 2 ^ w then .ok a else .error .cast

def assert (p : Prop) [Decidable p] : Checked Unit :=
  if p then .ok () else .error .assertion

/-- The `.?` operator. -/
def unwrap {α : Type*} : Option α → Checked α
  | some a => .ok a
  | none => .error .unwrapNull

def index {α : Type*} (xs : List α) (i : ℕ) : Checked α :=
  match xs[i]? with
  | some a => .ok a
  | none => .error .bounds

section

variable {w a b c : ℕ} {α : Type*}

@[simp] theorem add_eq_ok : add w a b = .ok c ↔ a + b < 2 ^ w ∧ c = a + b := by
  unfold add
  split
  · simp_all [eq_comm]
  · simp only [reduceCtorEq, false_iff]
    omega

@[simp] theorem sub_eq_ok : sub a b = .ok c ↔ b ≤ a ∧ c = a - b := by
  unfold sub
  split
  · simp_all [eq_comm]
  · simp only [reduceCtorEq, false_iff]
    omega

@[simp] theorem intCast_eq_ok : intCast w a = .ok c ↔ a < 2 ^ w ∧ c = a := by
  unfold intCast
  split
  · simp_all [eq_comm]
  · simp only [reduceCtorEq, false_iff]
    omega

@[simp] theorem assert_eq_ok {p : Prop} [Decidable p] {u : Unit} : assert p = .ok u ↔ p := by
  unfold assert
  split <;> simp_all

variable {x : α}

@[simp] theorem unwrap_eq_ok {o : Option α} : unwrap o = .ok x ↔ o = some x := by
  cases o <;> simp [unwrap]

variable {xs : List α}

@[simp] theorem index_eq_ok {i : ℕ} : index xs i = .ok x ↔ xs[i]? = some x := by
  unfold index
  split <;> simp_all

theorem add_of_lt (h : a + b < 2 ^ w) : add w a b = .ok (a + b) := add_eq_ok.mpr ⟨h, rfl⟩

theorem sub_of_le (h : b ≤ a) : sub a b = .ok (a - b) := sub_eq_ok.mpr ⟨h, rfl⟩

theorem intCast_of_lt (h : a < 2 ^ w) : intCast w a = .ok a := intCast_eq_ok.mpr ⟨h, rfl⟩

theorem assert_of {p : Prop} [Decidable p] (h : p) : assert p = .ok () := assert_eq_ok.mpr h

@[simp] theorem assert_true : assert True = .ok () := rfl

theorem index_of {i : ℕ} (h : xs[i]? = some x) : index xs i = .ok x :=
  index_eq_ok.mpr h

end

end Zig
