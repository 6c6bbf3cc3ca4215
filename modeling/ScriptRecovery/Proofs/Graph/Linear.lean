import ScriptRecovery.Flow.Build
import ScriptRecovery.Proofs.Graph.Splicing

/-!
# Where graphs come from

The graph that is one row of edges from its entry to its end: its nodes in order, and that its arena
is one that is accepted (`ofNodes_linear`).  Such rows, the graphs of streams and the arenas that
are accepted are all the graphs there are to start with (`FlowGraph.Origin`).
-/

namespace ScriptRecovery

namespace Graph

variable {ε : Type} [PlainEdge ε] {edges : List ε}

theorem source_linear : (linear edges).source = 0 := rfl

theorem nodes_linear : (linear edges).nodes =
    ((rowOf edges).mapIdx (fun i edge => Node.simple ⟨edge, i + 1⟩) ++ [Node.done]).toArray := by
  cases edges <;> rfl

theorem size_linear : (linear edges).size = (rowOf edges).length + 1 := by
  simp [size, nodes_linear]

theorem node_linear {i : Nat} (h : i < (rowOf edges).length) :
    (linear edges).nodes[i]? = some (.simple ⟨(rowOf edges)[i], i + 1⟩) := by
  rw [nodes_linear, List.getElem?_toArray, List.getElem?_append_left (by simpa using h)]
  simp [h]

theorem node_linear_last : (linear edges).nodes[(rowOf edges).length]? = some .done := by
  rw [nodes_linear]
  simp

/-- From each node the edges behind it lead to the end. -/
theorem row_linear {pre es : List ε} (h : rowOf edges = pre ++ es) :
    (linear edges).Row 0 (rowOf edges).length pre.length es := by
  induction es generalizing pre with
  | nil =>
    rw [h, List.append_nil]
    exact .nil
  | cons e es ih =>
    have hlt : pre.length < (rowOf edges).length := by simp [h]
    have hedge : (rowOf edges)[pre.length] = e := by simp [h]
    have hnode : (linear edges).node? pre.length = some (.simple ⟨e, pre.length + 1⟩) :=
      hedge ▸ node_linear hlt
    refine .cons (Nat.zero_le _) hnode ?_
    simpa using @ih (pre ++ [e]) (by simp [h])

/-- The arena of a row is accepted. -/
theorem ofNodes_linear : ofNodes (linear edges).nodes 0 = .ok (linear edges) := by
  have hsize : (linear edges).nodes.size = (rowOf edges).length + 1 := size_linear
  rw [ofNodes_eq_ok (by omega)]
  · rfl
  intro n hn
  have hlt : n < (linear edges).nodes.size := hn.lt_size
  rcases Nat.lt_or_ge n (rowOf edges).length with h | h
  · refine ⟨_, node_linear h, by simp, fun d hd => ?_⟩
    obtain rfl : d = n + 1 := by simpa [Node.targets, Node.links] using hd
    omega
  · obtain rfl : n = (rowOf edges).length := by omega
    exact ⟨_, node_linear_last, by simp, by simp [Node.targets, Node.links]⟩

theorem sound_linear : (linear edges).Sound := (sound_of_ofNodes ofNodes_linear).1

end Graph

namespace FlowGraph

/-- The ways to get a graph. -/
inductive Origin : FlowGraph → Prop
  | accepted {nodes : Array (Node Edge)} {source : Nat} {g : FlowGraph} :
      Graph.ofNodes nodes source = .ok g → Origin g
  | built {s : Stream} {g : FlowGraph} : ofStream s = .ok g → Origin g
  | linear (edges : List Edge) : Origin (Graph.linear edges)

theorem Origin.sound {g : FlowGraph} (h : Origin g) : Graph.Sound g := by
  cases h with
  | accepted h => exact (Graph.sound_of_ofNodes h).1
  | built h => exact (Graph.sound_of_ofNodes h).1
  | linear edges => exact Graph.sound_linear

end FlowGraph

end ScriptRecovery
