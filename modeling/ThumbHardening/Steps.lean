/-!
# Steps that may fail half way

A pass works through a list and changes its state at every element. When a step fails, the run ends, and
what the steps before it did stays.
-/

namespace ThumbHardening
namespace Steps
variable {α σ ε : Type}

/-- Runs a step for each element until one fails. The result is the state then, and the failure. -/
def runAll (step : α → σ → σ × Option ε) : List α → σ → σ × Option ε
  | [], state => (state, none)
  | a :: rest, state =>
    match step a state with
    | (state, some e) => (state, some e)
    | (state, none) => runAll step rest state

/-- Changes each element in turn until a step fails. The elements behind stay as they are. -/
def mapAll (step : α → σ → α × σ × Option ε) : List α → σ → List α × σ × Option ε
  | [], state => ([], state, none)
  | a :: rest, state =>
    match step a state with
    | (a, state, some e) => (a :: rest, state, some e)
    | (a, state, none) =>
      let (rest, state, failure) := mapAll step rest state
      (a :: rest, state, failure)

end Steps
end ThumbHardening
