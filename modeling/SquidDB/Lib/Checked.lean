import Mathlib

/-!
# Programs that may fault

An imperative program either reaches a state that its language defines or
faults: it dereferences a null or dangling pointer, leaves an array, fails an
assertion, or never terminates.  `Checked` computes a value or the fault that
came first.  A call which does not fault ends as an `Outcome`: it returns a
value or throws, and in both cases the object it was called on persists.
-/

namespace Checked

/-- The ways in which a program can leave its defined behaviour. -/
inductive Fault where
  | nullPointer
  | danglingPointer
  | outOfBounds
  | assertFailed
  /-- An unsigned subtraction whose result would be negative. -/
  | underflow
  /-- A loop that visits more cells than were ever allocated. -/
  | divergence
  deriving DecidableEq, Repr

end Checked

/-- A computation that returns a value of type `α` unless it faults. -/
abbrev Checked (α : Type) := Except Checked.Fault α

namespace Checked

variable {α β : Type}

@[simp] theorem ok_bind (a : α) (f : α → Checked β) :
    ((Except.ok a : Checked α) >>= f) = f a := rfl

@[simp] theorem error_bind (e : Fault) (f : α → Checked β) :
    ((Except.error e : Checked α) >>= f) = .error e := rfl

@[simp] theorem pure_eq_ok (a : α) : (pure a : Checked α) = .ok a := rfl

/-- A computation bound to a continuation succeeds exactly when both do. -/
theorem bind_eq_ok {x : Checked α} {f : α → Checked β} {b : β} :
    (x >>= f) = .ok b ↔ ∃ a, x = .ok a ∧ f a = .ok b := by
  cases x with
  | error e => simp
  | ok a => simp

/-- A computation that returns a value does not fault. -/
theorem eq_ok_of_toOption {x : Checked α} {a : α}
    (h : x.toOption = some a) : x = .ok a := by
  cases x with
  | error e => cases h
  | ok b => exact congrArg _ (Option.some.inj h)

/-- Fault with `fault` unless the condition holds. -/
def require (fault : Fault) (condition : Bool) : Checked Unit :=
  if condition then .ok () else .error fault

@[simp] theorem require_true (fault : Fault) :
    require fault true = .ok () := rfl

@[simp] theorem require_false (fault : Fault) :
    require fault false = .error fault := rfl

/-- The assertion macro: the condition is not even evaluated when `ndebug`
compiles assertions out. -/
def assert (ndebug : Bool) (condition : Checked Bool) : Checked Unit :=
  if ndebug then .ok ()
  else condition >>= require .assertFailed

theorem assert_of_eq_ok {condition : Checked Bool} (ndebug : Bool)
    (h : condition = .ok true) : assert ndebug condition = .ok () := by
  cases ndebug with
  | true => rfl
  | false => simp [assert, h]

@[simp] theorem assert_ok_true (ndebug : Bool) :
    assert ndebug (.ok true) = .ok () :=
  assert_of_eq_ok ndebug rfl

@[simp] theorem assert_ndebug (condition : Checked Bool) :
    assert true condition = .ok () := rfl

/-- The target of a pointer, which must not be null. -/
def nonNull (pointer : Option α) : Checked α :=
  match pointer with
  | none => .error .nullPointer
  | some a => .ok a

@[simp] theorem nonNull_some (a : α) : nonNull (some a) = .ok a := rfl

@[simp] theorem nonNull_none :
    nonNull (none : Option α) = .error .nullPointer := rfl

/-- Read one cell of a memory, which must be allocated. -/
def load (memory : ℕ → Option α) (cell : ℕ) : Checked α :=
  match memory cell with
  | none => .error .danglingPointer
  | some a => .ok a

theorem load_of_eq_some {memory : ℕ → Option α} {cell : ℕ} {a : α}
    (h : memory cell = some a) : load memory cell = .ok a := by
  simp [load, h]

theorem load_of_eq_none {memory : ℕ → Option α} {cell : ℕ}
    (h : memory cell = none) :
    load memory cell = .error .danglingPointer := by
  simp [load, h]

/-- Unsigned subtraction that must not wrap around. -/
def subtract (a b : ℕ) : Checked ℕ :=
  if b ≤ a then .ok (a - b) else .error .underflow

theorem subtract_of_le {a b : ℕ} (h : b ≤ a) :
    subtract a b = .ok (a - b) := by
  simp [subtract, h]

end Checked

/-- How a call ends when it does not fault: the object persists with its
final state whether the call returns or throws. -/
inductive Outcome (σ α : Type*) where
  | returned (value : α) (state : σ)
  | thrown (message : String) (state : σ)
  deriving DecidableEq, Repr

namespace Outcome

variable {σ α : Type*}

/-- The state the object is left in. -/
def state : Outcome σ α → σ
  | returned _ s => s
  | thrown _ s => s

/-- The value or the exception seen by the caller. -/
def result : Outcome σ α → Except String α
  | returned a _ => .ok a
  | thrown message _ => .error message

/-- Change the value a call returns. -/
def map {β : Type*} (f : α → β) : Outcome σ α → Outcome σ β
  | returned a s => returned (f a) s
  | thrown message s => thrown message s

@[simp] theorem map_returned {β : Type*} (f : α → β) (a : α) (s : σ) :
    (returned a s).map f = returned (f a) s := rfl

@[simp] theorem map_thrown {β : Type*} (f : α → β) (message : String)
    (s : σ) : (thrown message s : Outcome σ α).map f = thrown message s := rfl

@[simp] theorem state_map {β : Type*} (f : α → β) (o : Outcome σ α) :
    (o.map f).state = o.state := by
  cases o <;> rfl

@[simp] theorem state_returned (a : α) (s : σ) :
    (returned a s).state = s := rfl

@[simp] theorem state_thrown (message : String) (s : σ) :
    (thrown message s : Outcome σ α).state = s := rfl

@[simp] theorem result_returned (a : α) (s : σ) :
    (returned a s).result = .ok a := rfl

@[simp] theorem result_thrown (message : String) (s : σ) :
    (thrown message s : Outcome σ α).result = .error message := rfl

end Outcome
