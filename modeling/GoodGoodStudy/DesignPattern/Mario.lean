/-
The state pattern of the Mario game: what an event does is decided by the class of the current state, and the
classes share the score of the machine. What a state has earned when it is reached covers what a monster takes
from it, so the score never falls below zero.
-/
import Mathlib.Logic.Basic

namespace GoodGoodStudy.DesignPattern

/-! ## The machine -/

inductive State
  | SMALL
  | SUPER
  | FIRE
  | CAPE
  deriving DecidableEq, Repr

/-- The classes that implement `IMario` have one instance each, which is given by its name. -/
structure MarioStateMachine where
  score : Int
  currentState : State
  deriving DecidableEq, Repr

namespace MarioStateMachine

def new : MarioStateMachine := ⟨0, .SMALL⟩

def setScore (stateMachine : MarioStateMachine) (score : Int) : MarioStateMachine := { stateMachine with score }

def setCurrentState (stateMachine : MarioStateMachine) (currentState : State) : MarioStateMachine :=
  { stateMachine with currentState }

end MarioStateMachine

/-! ## The states -/

/-- The events of `IMario`. -/
structure IMario where
  obtainMushRoom : MarioStateMachine → MarioStateMachine
  obtainCape : MarioStateMachine → MarioStateMachine
  obtainFireFlower : MarioStateMachine → MarioStateMachine
  meetMonster : MarioStateMachine → MarioStateMachine

/-- A new state, and what the event adds to the score. -/
def changeTo (state : State) (points : Int) (stateMachine : MarioStateMachine) : MarioStateMachine :=
  (stateMachine.setCurrentState state).setScore (stateMachine.score + points)

def SmallMario : IMario where
  obtainMushRoom := changeTo .SUPER 100
  obtainCape := changeTo .CAPE 200
  obtainFireFlower := changeTo .FIRE 300
  meetMonster := id

def SuperMario : IMario where
  obtainMushRoom := id
  obtainCape := changeTo .CAPE 200
  obtainFireFlower := changeTo .FIRE 300
  meetMonster := changeTo .SMALL (-100)

def CapeMario : IMario where
  obtainMushRoom := id
  obtainCape := id
  obtainFireFlower := id
  meetMonster := changeTo .SMALL (-200)

def FireMario : IMario where
  obtainMushRoom := id
  obtainCape := id
  obtainFireFlower := id
  meetMonster := changeTo .SMALL (-300)

/-- The instance with the name. -/
def State.getInstance : State → IMario
  | .SMALL => SmallMario
  | .SUPER => SuperMario
  | .FIRE => FireMario
  | .CAPE => CapeMario

inductive Event
  | obtainMushRoom
  | obtainCape
  | obtainFireFlower
  | meetMonster
  deriving DecidableEq, Repr

/-- `this.currentState` handles the event. -/
def MarioStateMachine.handle (stateMachine : MarioStateMachine) : Event → MarioStateMachine
  | .obtainMushRoom => stateMachine.currentState.getInstance.obtainMushRoom stateMachine
  | .obtainCape => stateMachine.currentState.getInstance.obtainCape stateMachine
  | .obtainFireFlower => stateMachine.currentState.getInstance.obtainFireFlower stateMachine
  | .meetMonster => stateMachine.currentState.getInstance.meetMonster stateMachine

/-! ## The score -/

/-- What a monster takes from a state, which is what the state has earned at least. -/
def State.stake : State → Int
  | .SMALL => 0
  | .SUPER => 100
  | .CAPE => 200
  | .FIRE => 300

/-- The score covers the stake. -/
def Solvent (stateMachine : MarioStateMachine) : Prop := stateMachine.currentState.stake ≤ stateMachine.score

theorem stake_nonneg (state : State) : 0 ≤ state.stake := by cases state <;> decide

/-- A change to a state whose stake the old one covers together with the points. -/
theorem solvent_changeTo {score : Int} {old : State} (h : Solvent ⟨score, old⟩) {state : State} {points : Int}
    (hpoints : state.stake ≤ old.stake + points) : Solvent (changeTo state points ⟨score, old⟩) := by
  show state.stake ≤ score + points
  exact Int.le_trans hpoints (Int.add_le_add_right h points)

theorem solvent_handle {stateMachine : MarioStateMachine} (h : Solvent stateMachine) (event : Event) :
    Solvent (stateMachine.handle event) := by
  obtain ⟨score, state⟩ := stateMachine
  cases state with
  | SMALL =>
    cases event with
    | obtainMushRoom | obtainCape | obtainFireFlower => exact solvent_changeTo h (by decide)
    | meetMonster => exact h
  | SUPER =>
    cases event with
    | obtainMushRoom => exact h
    | obtainCape | obtainFireFlower | meetMonster => exact solvent_changeTo h (by decide)
  | CAPE =>
    cases event with
    | obtainMushRoom | obtainCape | obtainFireFlower => exact h
    | meetMonster => exact solvent_changeTo h (by decide)
  | FIRE =>
    cases event with
    | obtainMushRoom | obtainCape | obtainFireFlower => exact h
    | meetMonster => exact solvent_changeTo h (by decide)

theorem solvent_foldl (events : List Event) {stateMachine : MarioStateMachine} (h : Solvent stateMachine) :
    Solvent (events.foldl MarioStateMachine.handle stateMachine) := by
  induction events generalizing stateMachine with
  | nil => exact h
  | cons event events ih => exact ih (solvent_handle h event)

/-- After any sequence of events the score is not negative, and covers what the current state has earned. -/
theorem score_foldl_handle (events : List Event) :
    0 ≤ (events.foldl MarioStateMachine.handle .new).score ∧
      ((events.foldl MarioStateMachine.handle .new).currentState = .SUPER →
        100 ≤ (events.foldl MarioStateMachine.handle .new).score) ∧
      ((events.foldl MarioStateMachine.handle .new).currentState = .CAPE →
        200 ≤ (events.foldl MarioStateMachine.handle .new).score) ∧
      ((events.foldl MarioStateMachine.handle .new).currentState = .FIRE →
        300 ≤ (events.foldl MarioStateMachine.handle .new).score) := by
  have hsolvent : Solvent (events.foldl MarioStateMachine.handle .new) := solvent_foldl events (Int.le_refl 0)
  have hstake : ∀ state, (events.foldl MarioStateMachine.handle .new).currentState = state →
      state.stake ≤ (events.foldl MarioStateMachine.handle .new).score := fun state hstate => hstate ▸ hsolvent
  exact ⟨Int.le_trans (stake_nonneg _) hsolvent, hstake .SUPER, hstake .CAPE, hstake .FIRE⟩

example : [Event.obtainCape, .meetMonster].foldl MarioStateMachine.handle .new = ⟨0, .SMALL⟩ := by decide

end GoodGoodStudy.DesignPattern
