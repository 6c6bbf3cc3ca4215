import ScriptRecovery.Flow.Edge
import ScriptRecovery.Outcome

/-!
# Passes

A pass edits a graph and answers whether it changed it.  A pass looks at the graph first and then
applies its edits one after another, up to the first that is refused (`Outcome`).

A `Schedule` runs passes in a row.  In fixpoint mode it repeats the row until no pass changes the
graph, at most as often as it is told.
-/

namespace ScriptRecovery

/-- A pass. -/
structure Pass where
  /-- Its name. -/
  name : String
  /-- What it does, in a sentence. -/
  description : String := "No description available"
  /-- Runs it.  The number tells how often the schedule ran it before. -/
  run : Nat → FlowGraph → Outcome FlowGraph

/-! ## Schedules -/

/-- Passes in a row, and how often the row is run. -/
structure Schedule where
  /-- The passes, in order. -/
  passes : List Pass
  /-- Whether the row is repeated until nothing changes. -/
  fixpoint : Bool
  /-- The greatest number of rows in fixpoint mode. -/
  maxIterations : Nat

namespace Schedule

/-- Runs every pass once. -/
def runRow (iteration : Nat) (g : FlowGraph) : List Pass → Outcome FlowGraph
  | [] => .unchanged g
  | p :: ps =>
      match p.run iteration g with
      | ⟨g, .error fault⟩ => ⟨g, .error fault⟩
      | ⟨g, .ok changed⟩ =>
          let rest := runRow iteration g ps
          ⟨rest.state, rest.changed.map (changed || ·)⟩

/-- Runs rows until one changes nothing, at most as many as are left. -/
def runRows (passes : List Pass) (iteration : Nat) (g : FlowGraph) : Nat → Outcome FlowGraph
  | 0 => .unchanged g
  | left + 1 =>
      match runRow iteration g passes with
      | ⟨g, .error fault⟩ => ⟨g, .error fault⟩
      | ⟨g, .ok false⟩ => .unchanged g
      | ⟨g, .ok true⟩ =>
          let rest := runRows passes (iteration + 1) g left
          ⟨rest.state, rest.changed.map fun _ => true⟩

/-- Runs a schedule. -/
def run (s : Schedule) (g : FlowGraph) : Outcome FlowGraph :=
  if s.fixpoint then runRows s.passes 0 g s.maxIterations else runRow 0 g s.passes

end Schedule

end ScriptRecovery
