import CultureLint.SyntaxError

/-! Work that can be called off. Whoever started it may cancel it at any time; the work itself asks now
and then whether it should go on. -/

namespace CultureLint

/-- A signal that work shall stop. It is live for as many more questions as it says, and for ever when
it says nothing. -/
structure CancelToken where
  liveChecks : Option Nat
deriving DecidableEq, Repr

namespace CancelToken

/-- A signal that is never given. -/
def live : CancelToken := ⟨none⟩

/-- A signal that was given before the work began. -/
def cancelled : CancelToken := ⟨some 0⟩

def isCancelled (t : CancelToken) : Bool := t.liveChecks = some 0

/-- The signal after one more question. -/
def tick (t : CancelToken) : CancelToken := ⟨t.liveChecks.map (· - 1)⟩

/-- What work does with its signal: it asks whether the signal was given, or gives it itself. -/
inductive Event
  | asked
  | given
deriving DecidableEq, Repr

end CancelToken

/-- What comes of work under a signal: its value, the signal after it, and what it did with the signal, in
order. -/
structure Outcome (α : Type) where
  value : α
  token : CancelToken
  events : List CancelToken.Event
deriving Repr

/-- Work under a signal. It does not see the record of its questions, which goes on whatever the answers
are. -/
def Watched (α : Type) := CancelToken → Outcome α

namespace Watched

variable {α β : Type}

protected def pure (a : α) : Watched α := fun token => ⟨a, token, []⟩

protected def bind (x : Watched α) (f : α → Watched β) : Watched β := fun token =>
  let first := x token
  let second := f first.value first.token
  { second with events := first.events ++ second.events }

instance : Monad Watched where
  pure := Watched.pure
  bind := Watched.bind

/-- Looks at the signal. -/
def ask : Watched Bool := fun token => ⟨token.isCancelled, token.tick, [.asked]⟩

/-- Gives the signal. -/
def give : Watched Unit := fun _ => ⟨(), .cancelled, [.given]⟩

end Watched

/-- Why work has no result. -/
inductive Failure
  | syntaxError (error : SyntaxError)
  | cancelled
deriving DecidableEq, Repr

def Failure.message : Failure → String
  | .syntaxError e => e.message
  | .cancelled => "operation cancelled"

/-- Work that may fail or be cancelled. What became of the signal is known also where the work failed. -/
abbrev Run := ExceptT Failure Watched

namespace Run

variable {α : Type}

/-- Asks whether to go on. -/
def check : Run Unit := do
  if ← Watched.ask then
    throw .cancelled

/-- Cancels the work. -/
def cancel : Run Unit := Watched.give

/-- Takes over a result of reading. -/
def ofRead (result : Except SyntaxError α) : Run α :=
  match result with
  | .ok a => return a
  | .error e => throw (.syntaxError e)

/-- What comes of some work. -/
def outcome (action : Run α) (token : CancelToken) : Outcome (Except Failure α) := ExceptT.run action token

/-- The result of some work, and the signal after it. -/
def run' (action : Run α) (token : CancelToken) : Except Failure α × CancelToken :=
  ((action.outcome token).value, (action.outcome token).token)

end Run

end CultureLint
