/-!
# Globals

The return codes every layer of the server shares and the ways in which a run
of the C code can go wrong.  Pointers are `Option`s with `none` for `NULL`; a
dereference of `NULL` is a fault, and so is a loop that is cut off.
-/

namespace PWebServer

/-- The return codes of `globals.h`: `OK`, `ERROR`, `AGAIN` and
`INVALID_REQUEST`. -/
inductive Ret where
  | ok
  | error
  | again
  | invalidRequest
  deriving DecidableEq, Repr

/-- Why a run stops without a result. -/
inductive Fault where
  /-- a dereference of `NULL` -/
  | null
  /-- an access past the end of an array -/
  | bounds
  /-- `ABORT_ON` or `assert` fired -/
  | abort
  /-- the bound put on a loop was too small -/
  | fuel
  deriving DecidableEq, Repr

/-- `*p` for a pointer `p`. -/
def deref (p : Option α) : Except Fault α :=
  match p with
  | some a => .ok a
  | none => .error .null

@[simp] theorem deref_some (a : α) : deref (some a) = .ok a := rfl

@[simp] theorem deref_none : deref (none : Option α) = .error .null := rfl

theorem deref_ok {p : Option α} {a : α} (h : deref p = .ok a) : p = some a := by
  cases p with
  | none => contradiction
  | some b => exact congrArg some (Except.ok.inj h)

/-- What comes after a step that went well. -/
theorem bind_ok {α β : Type} {x : Except Fault α} {f : α → Except Fault β} {b : β}
    (h : (x >>= f) = .ok b) : ∃ a, x = .ok a ∧ f a = .ok b := by
  cases x with
  | error e => contradiction
  | ok a => exact ⟨a, rfl, h⟩

end PWebServer
