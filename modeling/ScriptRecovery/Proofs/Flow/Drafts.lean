import ScriptRecovery.Flow.Build
import ScriptRecovery.Proofs.Graph.Sound

/-!
# What a graph under construction shows

Construction places offsets at nodes.  `FlowGraph.Shows` says when the way out of a node is the one
that the action at an offset calls for, and `FlowGraph.Arrives` when a node stands for where control
goes next.  Both are stated over any reading of nodes and places, so that they speak of drafts and
of finished graphs.

`Draft.Sound` is the invariant of construction: every offset that has been read is shown, and a test
edge alone leads to its test.  Every operation of a draft has one lemma that keeps it.  Between two
operations an offset may have been taken off the stack and not be shown yet (`current`), and nodes
may have been added and not be used yet (`loose`).  The operations of one action are put together in
`Draft.Sound.step`.
-/

namespace ScriptRecovery

namespace FlowGraph

/-! ## What is shown of an offset -/

/-- Whether a node stands for where control goes next.  It does so itself, or it is the place of no
offset and has a plain edge to the node that does. -/
def Arrives (node? : Nat → Option (Node Edge)) (stops : Nat → Prop) (place : Nat → Option Nat)
    (n : Nat) : Option Nat → Prop
  | none => stops n
  | some o => place o = some n ∨ ∃ m, node? n = some (.simple ⟨.plain, m⟩) ∧ place o = some m ∧
      ∀ o', place o' ≠ some n

/-- Whether the way out of a node is the one for what can be read at its offset. -/
def Shows (node? : Nat → Option (Node Edge)) (stops : Nat → Prop) (place : Nat → Option Nat)
    (n : Nat) : Option (Action × Nat) → Prop
  | none => stops n
  | some (.branch displacement, next) => ∃ test onTrue onFalse,
      node? n = some (.simple ⟨.ifTest, test⟩) ∧
      node? test = some (.branch ⟨.ifTrue, onTrue⟩ ⟨.ifFalse, onFalse⟩) ∧
      Arrives node? stops place onTrue (branchTarget next displacement) ∧
      Arrives node? stops place onFalse (some next)
  | some (.jump displacement, next) =>
      match branchTarget next displacement with
      | none => stops n
      | some o => ∃ m, node? n = some (.simple ⟨.plain, m⟩) ∧ place o = some m
  | some (action, next) => ∃ m, node? n = some (.simple ⟨.action action, m⟩) ∧
      Arrives node? stops place m (some next)

section Monotone

variable {node? node?' : Nat → Option (Node Edge)} {stops stops' : Nat → Prop}
  {place place' : Nat → Option Nat} {n : Nat}

theorem Arrives.mono {o : Option Nat} (h : Arrives node? stops place n o)
    (hn : ∀ x node, node? x = some node → node ≠ .pending → node?' x = some node)
    (hs : ∀ x, stops x → stops' x) (hp : ∀ o x, place o = some x → place' o = some x)
    (hnew : ∀ o x, place' o = some x → place o = some x ∨ node? x = some .pending) :
    Arrives node?' stops' place' n o := by
  cases o with
  | none => exact hs n h
  | some o =>
    rcases h with h | ⟨m, hm, h, hfree⟩
    · exact .inl (hp o n h)
    · refine .inr ⟨m, hn n _ hm (by simp), hp o m h, fun o' ho' => ?_⟩
      rcases hnew o' n ho' with hold | hpending
      · exact hfree o' hold
      · cases hm.symm.trans hpending

theorem Shows.mono {r : Option (Action × Nat)} (h : Shows node? stops place n r)
    (hn : ∀ x node, node? x = some node → node ≠ .pending → node?' x = some node)
    (hs : ∀ x, stops x → stops' x) (hp : ∀ o x, place o = some x → place' o = some x)
    (hnew : ∀ o x, place' o = some x → place o = some x ∨ node? x = some .pending) :
    Shows node?' stops' place' n r := by
  unfold Shows at h ⊢
  split at h
  · exact hs n h
  · obtain ⟨test, onTrue, onFalse, h₁, h₂, h₃, h₄⟩ := h
    exact ⟨test, onTrue, onFalse, hn n _ h₁ (by simp), hn test _ h₂ (by simp),
      h₃.mono hn hs hp hnew, h₄.mono hn hs hp hnew⟩
  · split at h
    · exact hs n h
    · next o ho =>
      obtain ⟨m, hm, h⟩ := h
      exact ⟨m, hn n _ hm (by simp), hp o m h⟩
  · obtain ⟨m, hm, h⟩ := h
    exact ⟨m, hn n _ hm (by simp), h.mono hn hs hp hnew⟩

end Monotone

/-! ## Sound drafts -/

/-- Whether construction gives a node such ways out. -/
def IsDrawn : Node Edge → Prop
  | .pending | .done => True
  | .simple ⟨.plain, _⟩ | .simple ⟨.action _, _⟩ | .simple ⟨.ifTest, _⟩ => True
  | .simple _ => False
  | .branch onTrue onFalse =>
      onTrue.edge = .ifTrue ∧ onFalse.edge = .ifFalse ∧ onTrue.dest ≠ onFalse.dest

theorem IsDrawn.edge_cases {node : Node Edge} {l : Link Edge} (h : IsDrawn node)
    (hl : l ∈ node.links) : l.edge = .plain ∨ (∃ a, l.edge = .action a) ∨ l.edge = .ifTest ∨
      l.edge = .ifTrue ∨ l.edge = .ifFalse := by
  cases node with
  | pending | done => simp [Node.links] at hl
  | simple out =>
    obtain rfl : l = out := by simpa [Node.links] using hl
    obtain ⟨e, dest⟩ := l
    cases e <;> first | exact h.elim | simp
  | branch a b =>
    have hl : l = a ∨ l = b := by simpa [Node.links] using hl
    rcases hl with rfl | rfl
    · simp [h.1]
    · simp [h.2.1]

namespace Draft

/-- Whether a node is one from which nothing will lead on. -/
def Stops (d : Draft) (current loose : List Nat) (n : Nat) : Prop :=
  d.nodes[n]? = some .pending ∧ n ∉ loose ∧
    ∀ o, o ∈ d.todo ∨ o ∈ current → d.nodeOf? o ≠ some n

/-- What a draft of the graph of a stream keeps to, while the offsets `current` are not shown yet
and the nodes `loose` are not used yet. -/
structure Sound (s : Stream) (d : Draft) (current loose : List Nat) : Prop where
  start : d.nodeOf? 0 = some 0
  todo_nodup : d.todo.Nodup
  todo_placed : ∀ {o : Nat}, o ∈ d.todo →
    o ∉ current ∧ ∃ n, d.nodeOf? o = some n ∧ d.nodes[n]? = some .pending
  placed : ∀ {o n : Nat}, d.nodeOf? o = some n →
    n < d.nodes.size ∧ n ∉ loose ∧ ∀ a b, d.nodes[n]? ≠ some (.branch a b)
  placed_inj : ∀ {o o' n : Nat}, d.nodeOf? o = some n → d.nodeOf? o' = some n → o = o'
  loose_pending : ∀ {n : Nat}, n ∈ loose → d.nodes[n]? = some .pending
  loose_nodup : loose.Nodup
  incomplete : ∀ {n : Nat}, n ∈ d.incomplete ↔ d.nodes[n]? = some .pending ∧ n ∉ loose
  shown : ∀ {o n : Nat}, d.nodeOf? o = some n → o ∉ d.todo → o ∉ current →
    Shows (d.nodes[·]?) (d.Stops current loose) d.nodeOf? n (s.readAt? o)
  drawn : ∀ {n : Nat} {node : Node Edge}, d.nodes[n]? = some node → IsDrawn node
  links : ∀ {n : Nat} {node : Node Edge} {l : Link Edge}, d.nodes[n]? = some node →
    l ∈ node.links → l.dest < d.nodes.size
  test_of_branch : ∀ {n : Nat} {node : Node Edge} {l : Link Edge} {a b : Link Edge},
    d.nodes[n]? = some node → l ∈ node.links → d.nodes[l.dest]? = some (.branch a b) →
    node = .simple ⟨.ifTest, l.dest⟩
  branch_of_test : ∀ {n t : Nat}, d.nodes[n]? = some (.simple ⟨.ifTest, t⟩) →
    ∃ a b, d.nodes[t]? = some (.branch a b)
  own : ∀ {n m : Nat} {node node' : Node Edge} {l l' : Link Edge}, d.nodes[n]? = some node →
    d.nodes[m]? = some node' → l ∈ node.links → l' ∈ node'.links → l.edge ≠ .plain →
    l'.edge ≠ .plain → l.dest = l'.dest → n = m

variable {s : Stream} {d : Draft} {current loose : List Nat}

theorem sound_start (s : Stream) : start.Sound s [] [] := by
  have hnode : ∀ {n : Nat} {node : Node Edge}, (start.nodes[n]? = some node) →
      n = 0 ∧ node = .pending := by
    intro n node h
    match n, h with
    | 0, h => exact ⟨rfl, by simpa [start] using h.symm⟩
    | n + 1, h => simp [start] at h
  have hlink : ∀ {n : Nat} {node : Node Edge} {l : Link Edge}, start.nodes[n]? = some node →
      l ∉ node.links := by
    intro n node l h
    rw [(hnode h).2]
    simp [Node.links]
  have hplace : ∀ {o n : Nat}, start.nodeOf? o = some n → o = 0 ∧ n = 0 := by
    intro o n h
    simp only [nodeOf?, start, List.lookup_cons, List.lookup_nil] at h
    split at h
    · next ho => exact ⟨by simpa using ho, by simpa using h.symm⟩
    · simp at h
  exact {
    start := rfl
    todo_nodup := by simp [start]
    todo_placed := fun ho => by
      obtain rfl := List.mem_singleton.1 ho
      exact ⟨by simp, 0, rfl, rfl⟩
    placed := fun h => by
      obtain ⟨rfl, rfl⟩ := hplace h
      exact ⟨by simp [start], by simp, by simp [start]⟩
    placed_inj := fun h h' => by rw [(hplace h).1, (hplace h').1]
    loose_pending := by simp
    loose_nodup := .nil
    incomplete := fun {n} => by
      rw [show n ∈ start.incomplete ↔ n = 0 from Ascending.mem_singleton]
      constructor
      · rintro rfl
        exact ⟨rfl, by simp⟩
      · exact fun h => (hnode h.1).1
    shown := fun h hn => absurd (by simp [(hplace h).1, start]) hn
    drawn := fun h => by
      rw [(hnode h).2]
      trivial
    links := fun h hl => absurd hl (hlink h)
    test_of_branch := fun h hl => absurd hl (hlink h)
    branch_of_test := fun h => by cases (hnode h).2
    own := fun h _ hl => absurd hl (hlink h) }

/-! ## Operations of a draft -/

theorem lt_size_of_pending {n : Nat} (h : d.nodes[n]? = some .pending) : n < d.nodes.size :=
  (Array.getElem?_eq_some_iff.1 h).1

/-- An offset is taken off the stack. -/
theorem Sound.take {o : Nat} {todo : List Nat} (h : d.Sound s [] []) (ht : d.todo = o :: todo) :
    ({ d with todo } : Draft).Sound s [o] [] := by
  have hnd := h.todo_nodup
  rw [ht, List.nodup_cons] at hnd
  have hmem : ∀ {o'}, o' ∈ d.todo ↔ o' ∈ todo ∨ o' ∈ [o] := by
    intro o'
    rw [ht, List.mem_cons, List.mem_singleton, or_comm]
  refine ⟨h.start, hnd.2, ?_, h.placed, h.placed_inj, by simp, .nil, h.incomplete, ?_, h.drawn,
    h.links, h.test_of_branch, h.branch_of_test, h.own⟩
  · intro o' ho'
    refine ⟨?_, (h.todo_placed (hmem.2 (.inl ho'))).2⟩
    rw [List.mem_singleton]
    rintro rfl
    exact hnd.1 ho'
  · intro o' n hn ht' hc
    have hstops : ∀ x, d.Stops [] [] x → ({ d with todo } : Draft).Stops [o] [] x := by
      rintro x ⟨hx, hl, hp⟩
      exact ⟨hx, hl, fun o' ho' => hp o' (.inl (hmem.2 ho'))⟩
    exact (h.shown hn (fun h => (hmem.1 h).elim ht' hc) (by simp)).mono (fun _ _ h _ => h)
      hstops (fun _ _ h => h) fun _ _ h => .inl h

@[simp] theorem size_grow : d.grow.nodes.size = d.nodes.size + 1 := by
  simp [Draft.grow]

theorem nodes_grow {n : Nat} {node : Node Edge} (h : d.nodes[n]? = some node) :
    d.grow.nodes[n]? = some node := by
  have hn : n < d.nodes.size := (Array.getElem?_eq_some_iff.1 h).1
  simp only [Draft.grow]
  rw [Array.getElem?_push_lt hn, ← Array.getElem?_eq_getElem hn, h]

/-- What a draft with a node added has at a node. -/
theorem grow_cases {n : Nat} {node : Node Edge} (h : d.grow.nodes[n]? = some node) :
    d.nodes[n]? = some node ∨ n = d.nodes.size ∧ node = .pending := by
  simp only [Draft.grow, Array.getElem?_push] at h
  split at h
  · next hn => exact .inr ⟨hn, (Option.some.inj h).symm⟩
  · exact .inl h

theorem nodes_of_grow {n : Nat} {node : Node Edge} {l : Link Edge}
    (h : d.grow.nodes[n]? = some node) (hl : l ∈ node.links) : d.nodes[n]? = some node := by
  rcases grow_cases h with h | ⟨-, rfl⟩
  · exact h
  · simp [Node.links] at hl

/-- A node is added. -/
theorem Sound.grow (h : d.Sound s current loose) :
    d.grow.Sound s current (d.nodes.size :: loose) := by
  have hnew : d.grow.nodes[d.nodes.size]? = some .pending := by simp [Draft.grow]
  -- an old node is loose if it was
  have hmem : ∀ {n : Nat}, n < d.nodes.size → (n ∈ d.nodes.size :: loose ↔ n ∈ loose) := by
    intro n hn
    rw [List.mem_cons, or_iff_right (Nat.ne_of_lt hn)]
  have hbranch : ∀ {n : Nat} {a b : Link Edge}, d.grow.nodes[n]? = some (.branch a b) →
      d.nodes[n]? = some (.branch a b) := fun hn =>
    nodes_of_grow hn List.mem_cons_self
  exact {
    start := h.start
    todo_nodup := h.todo_nodup
    todo_placed := fun ho => by
      obtain ⟨hc, n, hn, hp⟩ := h.todo_placed ho
      exact ⟨hc, n, hn, nodes_grow hp⟩
    placed := fun hn => by
      obtain ⟨hlt, hl, hb⟩ := h.placed hn
      exact ⟨by simp; omega, fun hm => hl ((hmem hlt).1 hm), fun a b hab => hb a b (hbranch hab)⟩
    placed_inj := h.placed_inj
    loose_pending := fun hn => by
      rcases List.mem_cons.1 hn with rfl | hn
      · exact hnew
      · exact nodes_grow (h.loose_pending hn)
    loose_nodup := List.nodup_cons.2
      ⟨fun hn => Nat.lt_irrefl _ (lt_size_of_pending (h.loose_pending hn)), h.loose_nodup⟩
    incomplete := fun {n} => by
      rw [show n ∈ d.grow.incomplete ↔ n ∈ d.incomplete from Iff.rfl, h.incomplete]
      constructor
      · rintro ⟨hn, hl⟩
        exact ⟨nodes_grow hn, fun hm => hl ((hmem (lt_size_of_pending hn)).1 hm)⟩
      · rintro ⟨hn, hl⟩
        rcases grow_cases hn with hn | ⟨rfl, -⟩
        · exact ⟨hn, fun hm => hl (List.mem_cons_of_mem _ hm)⟩
        · exact absurd List.mem_cons_self hl
    shown := fun hn ht hc => by
      refine (h.shown hn ht hc).mono (fun _ _ hx _ => nodes_grow hx) ?_ (fun _ _ hx => hx)
        fun _ _ hx => .inl hx
      rintro x ⟨hx, hl, hp⟩
      exact ⟨nodes_grow hx, fun hm => hl ((hmem (lt_size_of_pending hx)).1 hm), hp⟩
    drawn := fun hn => by
      rcases grow_cases hn with hn | ⟨-, rfl⟩
      · exact h.drawn hn
      · trivial
    links := fun hn hl => by
      have := h.links (nodes_of_grow hn hl) hl
      rw [size_grow]
      omega
    test_of_branch := fun hn hl hab => h.test_of_branch (nodes_of_grow hn hl) hl (hbranch hab)
    branch_of_test := fun hn => by
      obtain ⟨a, b, hab⟩ := h.branch_of_test (nodes_of_grow hn List.mem_cons_self)
      exact ⟨a, b, nodes_grow hab⟩
    own := fun hn hm hl hl' => h.own (nodes_of_grow hn hl) (nodes_of_grow hm hl') hl hl' }

/-- What one draft shows, another one shows as well. -/
structure Extends (d d' : Draft) (current loose loose' : List Nat) : Prop where
  nodes : ∀ (n : Nat) (node : Node Edge), d.nodes[n]? = some node → node ≠ .pending →
    d'.nodes[n]? = some node
  stops : ∀ n, d.Stops current loose n → d'.Stops current loose' n
  places : ∀ o n, d.nodeOf? o = some n → d'.nodeOf? o = some n
  fresh : ∀ o n, d'.nodeOf? o = some n → d.nodeOf? o = some n ∨ d.nodes[n]? = some .pending

theorem Extends.arrives {d' : Draft} {loose' : List Nat} {n : Nat} {o : Option Nat}
    (h : d.Extends d' current loose loose')
    (ha : Arrives (d.nodes[·]?) (d.Stops current loose) d.nodeOf? n o) :
    Arrives (d'.nodes[·]?) (d'.Stops current loose') d'.nodeOf? n o :=
  ha.mono h.nodes h.stops h.places h.fresh

/-- Whether a draft becomes another one by ways out for some of its pending nodes.  Such a node is
loose, or it is the one of an offset in work. -/
structure Fills (d d' : Draft) (current loose loose' : List Nat) : Prop where
  offsets : d'.offsets = d.offsets
  todo : d'.todo = d.todo
  size : d'.nodes.size = d.nodes.size
  kept : ∀ {n : Nat} {node : Node Edge}, d.nodes[n]? = some node → node ≠ .pending →
    d'.nodes[n]? = some node
  node_cases : ∀ {n : Nat} {node : Node Edge}, d'.nodes[n]? = some node →
    d.nodes[n]? = some node ∨ node ≠ .pending ∧ (n ∈ loose ∨ ∃ o ∈ current, d.nodeOf? o = some n)
  loose_nodup : loose'.Nodup
  mem_loose : ∀ {n : Nat}, n ∈ loose' ↔ n ∈ loose ∧ d'.nodes[n]? = some .pending
  mem_incomplete : ∀ {n : Nat}, n ∈ d'.incomplete ↔
    n ∈ d.incomplete ∧ d'.nodes[n]? = some .pending

section Fills

variable {d' : Draft} {loose' : List Nat}

theorem Fills.nodeOf?_eq (f : d.Fills d' current loose loose') : d'.nodeOf? = d.nodeOf? := by
  funext o
  rw [nodeOf?, nodeOf?, f.offsets]

theorem Fills.pending {n : Nat} (f : d.Fills d' current loose loose')
    (hn : d.nodes[n]? = some .pending) (hl : n ∉ loose)
    (hc : ∀ o ∈ current, d.nodeOf? o ≠ some n) : d'.nodes[n]? = some .pending := by
  have hlt : n < d'.nodes.size := f.size ▸ lt_size_of_pending hn
  rcases f.node_cases (Array.getElem?_eq_getElem hlt) with hold | ⟨-, hm | ⟨o, ho, hno⟩⟩
  · rw [Array.getElem?_eq_getElem hlt, ← hold, hn]
  · exact absurd hm hl
  · exact absurd hno (hc o ho)

theorem Fills.pending_of_pending {n : Nat} (f : d.Fills d' current loose loose')
    (hn : d'.nodes[n]? = some .pending) : d.nodes[n]? = some .pending :=
  (f.node_cases hn).resolve_right fun h => h.1 rfl

theorem Fills.extends (f : d.Fills d' current loose loose') :
    d.Extends d' current loose loose' where
  nodes _ _ := f.kept
  stops n hn := by
    refine ⟨f.pending hn.1 hn.2.1 fun o ho => hn.2.2 o (.inr ho),
      fun hm => hn.2.1 (f.mem_loose.1 hm).1, ?_⟩
    rw [f.todo, f.nodeOf?_eq]
    exact hn.2.2
  places _ _ h := f.nodeOf?_eq ▸ h
  fresh _ _ h := .inl (f.nodeOf?_eq ▸ h)

/-- A draft in which pending nodes have got ways out is sound when its edges are.  What was shown of
an offset is carried over, since no node that it speaks of is one of these. -/
theorem Sound.fill (h : d.Sound s current loose) (f : d.Fills d' current loose loose')
    (hbranch : ∀ {n : Nat} {a b : Link Edge}, d'.nodes[n]? = some (.branch a b) →
      d.nodes[n]? = some (.branch a b) ∨ n ∈ loose)
    (drawn : ∀ {n : Nat} {node : Node Edge}, d'.nodes[n]? = some node → IsDrawn node)
    (links : ∀ {n : Nat} {node : Node Edge} {l : Link Edge}, d'.nodes[n]? = some node →
      l ∈ node.links → l.dest < d.nodes.size)
    (test_of_branch : ∀ {n : Nat} {node : Node Edge} {l : Link Edge} {a b : Link Edge},
      d'.nodes[n]? = some node → l ∈ node.links → d'.nodes[l.dest]? = some (.branch a b) →
      node = .simple ⟨.ifTest, l.dest⟩)
    (branch_of_test : ∀ {n t : Nat}, d'.nodes[n]? = some (.simple ⟨.ifTest, t⟩) →
      ∃ a b, d'.nodes[t]? = some (.branch a b))
    (own : ∀ {n m : Nat} {node node' : Node Edge} {l l' : Link Edge}, d'.nodes[n]? = some node →
      d'.nodes[m]? = some node' → l ∈ node.links → l' ∈ node'.links → l.edge ≠ .plain →
      l'.edge ≠ .plain → l.dest = l'.dest → n = m) :
    d'.Sound s current loose' where
  start := f.nodeOf?_eq ▸ h.start
  todo_nodup := f.todo ▸ h.todo_nodup
  todo_placed {o} ho := by
    obtain ⟨hc, n, hn, hp⟩ := h.todo_placed (f.todo ▸ ho)
    refine ⟨hc, n, f.nodeOf?_eq ▸ hn, f.pending hp (h.placed hn).2.1 fun o' ho' hn' => ?_⟩
    exact hc (h.placed_inj hn hn' ▸ ho')
  placed {o n} hn := by
    obtain ⟨hlt, hl, hb⟩ := h.placed (f.nodeOf?_eq ▸ hn)
    exact ⟨f.size ▸ hlt, fun hm => hl (f.mem_loose.1 hm).1,
      fun a b hab => (hbranch hab).elim (hb a b) hl⟩
  placed_inj := f.nodeOf?_eq ▸ h.placed_inj
  loose_pending hn := (f.mem_loose.1 hn).2
  loose_nodup := f.loose_nodup
  incomplete {n} := by
    rw [f.mem_incomplete, h.incomplete, f.mem_loose]
    have hold := f.pending_of_pending (n := n)
    tauto
  shown hn ht hc := by
    rw [f.todo] at ht
    rw [f.nodeOf?_eq] at hn
    exact (h.shown hn ht hc).mono f.extends.nodes f.extends.stops f.extends.places f.extends.fresh
  drawn := drawn
  links hn hl := f.size ▸ links hn hl
  test_of_branch := test_of_branch
  branch_of_test := branch_of_test
  own := own

end Fills

theorem nodes_connect {k : Nat} {e : Edge} {dest n : Nat} (hk : k < d.nodes.size) :
    (d.connect k e dest).nodes[n]? = if n = k then some (.simple ⟨e, dest⟩) else d.nodes[n]? := by
  simp only [connect, Array.getElem?_setIfInBounds, eq_comm, hk, if_true]

/-- What a draft in which a node has got its way out has at a node. -/
theorem connect_cases {k : Nat} {e : Edge} {dest n : Nat} {node : Node Edge}
    (hk : k < d.nodes.size) (h : (d.connect k e dest).nodes[n]? = some node) :
    n = k ∧ node = .simple ⟨e, dest⟩ ∨ d.nodes[n]? = some node := by
  rw [nodes_connect hk] at h
  split at h
  · next hn => exact .inl ⟨hn, (Option.some.inj h).symm⟩
  · exact .inr h

theorem Sound.fills_connect (h : d.Sound s current loose) {k : Nat} {e : Edge} {dest : Nat}
    (hk : d.nodes[k]? = some .pending)
    (huse : k ∈ loose ∨ ∃ o ∈ current, d.nodeOf? o = some k) :
    d.Fills (d.connect k e dest) current loose (loose.erase k) where
  offsets := rfl
  todo := rfl
  size := by simp [Draft.connect]
  kept {n node} hn hp := by
    rw [nodes_connect (lt_size_of_pending hk), if_neg, hn]
    rintro rfl
    exact hp (Option.some.inj (hn.symm.trans hk))
  node_cases hn := by
    rcases connect_cases (lt_size_of_pending hk) hn with ⟨rfl, rfl⟩ | hn
    · exact .inr ⟨by simp, huse⟩
    · exact .inl hn
  loose_nodup := h.loose_nodup.erase k
  mem_loose {n} := by
    rw [h.loose_nodup.mem_erase_iff, nodes_connect (lt_size_of_pending hk), and_comm]
    refine and_congr_right fun hn => ?_
    by_cases hnk : n = k <;> simp [hnk, h.loose_pending hn]
  mem_incomplete {n} := by
    rw [show n ∈ (d.connect k e dest).incomplete ↔ n ∈ d.incomplete ∧ n ≠ k from
      Ascending.mem_erase, nodes_connect (lt_size_of_pending hk)]
    refine and_congr_right fun hn => ?_
    by_cases hnk : n = k <;> simp [hnk, (h.incomplete.1 hn).1]

/-- A node that is pending and not placed, unless by an offset in work, gets one way out. -/
theorem Sound.connect (h : d.Sound s current loose) {k : Nat} {e : Edge} {dest : Nat}
    (hk : d.nodes[k]? = some .pending)
    (huse : k ∈ loose ∨ ∃ o ∈ current, d.nodeOf? o = some k)
    (he : IsDrawn (.simple ⟨e, dest⟩)) (htest : e ≠ .ifTest) (hd : dest < d.nodes.size)
    (hb : ∀ a b, d.nodes[dest]? ≠ some (.branch a b))
    (hfresh : e ≠ .plain → ∀ {n : Nat} {node : Node Edge} {l : Link Edge},
      d.nodes[n]? = some node → l ∈ node.links → l.dest ≠ dest) :
    (d.connect k e dest).Sound s current (loose.erase k) := by
  have hlt := lt_size_of_pending hk
  have f : d.Fills (d.connect k e dest) current loose (loose.erase k) := h.fills_connect hk huse
  have hbranch : ∀ {n : Nat} {a b : Link Edge},
      (d.connect k e dest).nodes[n]? = some (.branch a b) → d.nodes[n]? = some (.branch a b) := by
    intro n a b hn
    rcases connect_cases hlt hn with ⟨-, hnode⟩ | hn
    · cases hnode
    · exact hn
  have hlink : ∀ {l : Link Edge}, l ∈ (Node.simple ⟨e, dest⟩).links → l = ⟨e, dest⟩ := by
    simp [Node.links]
  refine h.fill f (fun hab => .inl (hbranch hab)) ?drawn ?links ?test_of_branch ?branch_of_test
    ?own
  case drawn =>
    intro n node hn
    rcases connect_cases hlt hn with ⟨-, rfl⟩ | hn
    · exact he
    · exact h.drawn hn
  case links =>
    intro n node l hn hl
    rcases connect_cases hlt hn with ⟨-, rfl⟩ | hn
    · exact hlink hl ▸ hd
    · exact h.links hn hl
  case test_of_branch =>
    intro n node l a b hn hl hab
    rcases connect_cases hlt hn with ⟨-, rfl⟩ | hn
    · obtain rfl := hlink hl
      exact absurd (hbranch hab) (hb a b)
    · exact h.test_of_branch hn hl (hbranch hab)
  case branch_of_test =>
    intro n t hn
    rcases connect_cases hlt hn with ⟨-, hnode⟩ | hn
    · cases hnode
      exact absurd rfl htest
    · obtain ⟨a, b, hab⟩ := h.branch_of_test hn
      exact ⟨a, b, f.kept hab (by simp)⟩
  case own =>
    intro n m node node' l l' hn hm hl hl' he he' heq
    rcases connect_cases hlt hn with ⟨hnk, rfl⟩ | hold <;>
      rcases connect_cases hlt hm with ⟨hmk, rfl⟩ | hold'
    · rw [hnk, hmk]
    · obtain rfl := hlink hl
      exact absurd heq.symm (hfresh he hold' hl')
    · obtain rfl := hlink hl'
      exact absurd heq (hfresh he' hold hl)
    · exact h.own hold hold' hl hl' he he' heq

/-- Makes a node the test of two arms, and leads to it. -/
def branchAt (d : Draft) (k t a b : Nat) : Draft :=
  { d.connect k .ifTest t with
    nodes := (d.connect k .ifTest t).nodes.setIfInBounds t (.branch ⟨.ifTrue, a⟩ ⟨.ifFalse, b⟩) }

theorem nodes_branchAt {k t a b n : Nat} (hk : k < d.nodes.size) (ht : t < d.nodes.size) :
    (d.branchAt k t a b).nodes[n]? =
      if n = t then some (.branch ⟨.ifTrue, a⟩ ⟨.ifFalse, b⟩)
      else if n = k then some (.simple ⟨.ifTest, t⟩) else d.nodes[n]? := by
  simp only [branchAt]
  rw [Array.getElem?_setIfInBounds, nodes_connect hk]
  simp [connect, ht, eq_comm]

/-- What a draft with a new test has at a node. -/
theorem branchAt_cases {k t a b n : Nat} {node : Node Edge} (hk : k < d.nodes.size)
    (ht : t < d.nodes.size) (h : (d.branchAt k t a b).nodes[n]? = some node) :
    n = t ∧ node = .branch ⟨.ifTrue, a⟩ ⟨.ifFalse, b⟩ ∨
      n = k ∧ node = .simple ⟨.ifTest, t⟩ ∨ d.nodes[n]? = some node := by
  rw [nodes_branchAt hk ht] at h
  split at h
  · next hn => exact .inl ⟨hn, (Option.some.inj h).symm⟩
  · split at h
    · next hn => exact .inr (.inl ⟨hn, (Option.some.inj h).symm⟩)
    · exact .inr (.inr h)

theorem Sound.fills_branchAt (h : d.Sound s current loose) {o k t a b : Nat} (ho : o ∈ current)
    (hko : d.nodeOf? o = some k) (hk : d.nodes[k]? = some .pending) (ht : t ∈ loose) :
    d.Fills (d.branchAt k t a b) current loose (loose.erase t) := by
  have hpt := h.loose_pending ht
  have hklt := lt_size_of_pending hk
  have htlt := lt_size_of_pending hpt
  have hkl : k ∉ loose := (h.placed hko).2.1
  exact {
    offsets := rfl
    todo := rfl
    size := by simp [Draft.branchAt, Draft.connect]
    kept := fun {n node} hn hp => by
      rw [nodes_branchAt hklt htlt, if_neg, if_neg, hn]
      · rintro rfl
        exact hp (Option.some.inj (hn.symm.trans hk))
      · rintro rfl
        exact hp (Option.some.inj (hn.symm.trans hpt))
    node_cases := fun hn => by
      rcases branchAt_cases hklt htlt hn with ⟨rfl, rfl⟩ | ⟨rfl, rfl⟩ | hn
      · exact .inr ⟨by simp, .inl ht⟩
      · exact .inr ⟨by simp, .inr ⟨o, ho, hko⟩⟩
      · exact .inl hn
    loose_nodup := h.loose_nodup.erase t
    mem_loose := fun {n} => by
      rw [h.loose_nodup.mem_erase_iff, nodes_branchAt hklt htlt, and_comm]
      refine and_congr_right fun hn => ?_
      have hnk : n ≠ k := fun hnk => hkl (hnk ▸ hn)
      by_cases hnt : n = t <;> simp [hnt, hnk, h.loose_pending hn]
    mem_incomplete := fun {n} => by
      rw [show n ∈ (d.branchAt k t a b).incomplete ↔ n ∈ d.incomplete ∧ n ≠ k from
        Ascending.mem_erase, nodes_branchAt hklt htlt]
      refine and_congr_right fun hn => ?_
      obtain ⟨hp, hl⟩ := h.incomplete.1 hn
      have hnt : n ≠ t := fun hnt => hl (hnt ▸ ht)
      by_cases hnk : n = k
      · simp [hnk, show k ≠ t from hnk ▸ hnt]
      · simp [hnt, hnk, hp] }

/-- The node of an offset in work leads to a new test. -/
theorem Sound.branchAt (h : d.Sound s current loose) {o k t a b : Nat} (ho : o ∈ current)
    (hko : d.nodeOf? o = some k) (hk : d.nodes[k]? = some .pending) (ht : t ∈ loose)
    (hfresh : ∀ {n : Nat} {node : Node Edge} {l : Link Edge}, d.nodes[n]? = some node →
      l ∈ node.links → l.dest < t)
    (ha : a ∈ loose) (hb : b ∈ loose) (hta : t < a) (htb : t < b) (hab : a ≠ b) :
    (d.branchAt k t a b).Sound s current (loose.erase t) := by
  have hklt := lt_size_of_pending hk
  have htlt := lt_size_of_pending (h.loose_pending ht)
  have f := h.fills_branchAt (a := a) (b := b) ho hko hk ht
  have harm : ∀ {l : Link Edge}, l ∈ (Node.branch ⟨.ifTrue, a⟩ ⟨.ifFalse, b⟩).links →
      t < l.dest ∧ l.dest ∈ loose := by
    intro l hl
    have hl : l = ⟨.ifTrue, a⟩ ∨ l = ⟨.ifFalse, b⟩ := by simpa [Node.links] using hl
    rcases hl with rfl | rfl
    · exact ⟨hta, ha⟩
    · exact ⟨htb, hb⟩
  have hway : ∀ {l : Link Edge}, l ∈ (Node.simple ⟨.ifTest, t⟩).links → l = ⟨.ifTest, t⟩ := by
    simp [Node.links]
  -- the old edges lead below the new test, and its arms to loose nodes above it
  have hlink : ∀ {n : Nat} {node : Node Edge} {l : Link Edge},
      (d.branchAt k t a b).nodes[n]? = some node → l ∈ node.links →
      n = t ∧ t < l.dest ∧ l.dest ∈ loose ∨
        n = k ∧ node = .simple ⟨.ifTest, t⟩ ∧ l.dest = t ∨
        d.nodes[n]? = some node ∧ l.dest < t := by
    intro n node l hn hl
    rcases branchAt_cases hklt htlt hn with ⟨hnt, rfl⟩ | ⟨hnk, rfl⟩ | hn
    · exact .inl ⟨hnt, harm hl⟩
    · exact .inr (.inl ⟨hnk, rfl, by rw [hway hl]⟩)
    · exact .inr (.inr ⟨hn, hfresh hn hl⟩)
  have hbranch : ∀ {n : Nat} {a' b' : Link Edge},
      (d.branchAt k t a b).nodes[n]? = some (.branch a' b') →
      n = t ∨ d.nodes[n]? = some (.branch a' b') := by
    intro n a' b' hn
    rcases branchAt_cases hklt htlt hn with ⟨rfl, -⟩ | ⟨-, hnode⟩ | hn
    · exact .inl rfl
    · cases hnode
    · exact .inr hn
  refine h.fill f ?branch ?drawn ?links ?test_of_branch ?branch_of_test ?own
  case branch =>
    intro n a' b' hn
    rcases hbranch hn with rfl | hn
    · exact .inr ht
    · exact .inl hn
  case drawn =>
    intro n node hn
    rcases branchAt_cases hklt htlt hn with ⟨-, rfl⟩ | ⟨-, rfl⟩ | hn
    · exact ⟨rfl, rfl, hab⟩
    · trivial
    · exact h.drawn hn
  case links =>
    intro n node l hn hl
    rcases hlink hn hl with ⟨-, -, hd⟩ | ⟨-, -, hd⟩ | ⟨hn, -⟩
    · exact lt_size_of_pending (h.loose_pending hd)
    · exact hd ▸ htlt
    · exact h.links hn hl
  case test_of_branch =>
    intro n node l a' b' hn hl hab
    rcases hlink hn hl with ⟨-, hlt, hd⟩ | ⟨-, rfl, hd⟩ | ⟨hn, hlt⟩ <;>
      rcases hbranch hab with ht' | hab
    · omega
    · cases hab.symm.trans (h.loose_pending hd)
    · rw [hd]
    · rw [hd]
    · omega
    · exact h.test_of_branch hn hl hab
  case branch_of_test =>
    intro n t' hn
    rcases branchAt_cases hklt htlt hn with ⟨-, hnode⟩ | ⟨-, hnode⟩ | hn
    · cases hnode
    · cases hnode
      exact ⟨_, _, (nodes_branchAt hklt htlt).trans (if_pos rfl)⟩
    · obtain ⟨a', b', hab⟩ := h.branch_of_test hn
      exact ⟨a', b', f.kept hab (by simp)⟩
  case own =>
    intro n m node node' l l' hn hm hl hl' he he' heq
    rcases hlink hn hl with ⟨rfl, hd, -⟩ | ⟨rfl, -, hd⟩ | ⟨hn, hd⟩ <;>
      rcases hlink hm hl' with ⟨rfl, hd', -⟩ | ⟨rfl, -, hd'⟩ | ⟨hm, hd'⟩ <;>
      first | rfl | exact h.own hn hm hl hl' he he' heq | (exfalso; omega)

theorem nodeOf?_found {k o o' : Nat} :
    (d.found k o).nodeOf? o' = if o' = o then some k else d.nodeOf? o' := by
  simp only [nodeOf?, found, List.lookup_cons]
  by_cases h : o' = o
  · simp [h]
  · rw [if_neg h, show (o' == o) = false by simpa using h]

/-- The places of a draft in which an offset has got its node. -/
theorem found_cases {k o o' n : Nat} (h : (d.found k o).nodeOf? o' = some n) :
    o' = o ∧ n = k ∨ o' ≠ o ∧ d.nodeOf? o' = some n := by
  rw [nodeOf?_found] at h
  split at h
  · next ho => exact .inl ⟨ho, (Option.some.inj h).symm⟩
  · next ho => exact .inr ⟨ho, h⟩

/-- An offset that gets a node takes nothing from what the draft shows. -/
theorem Sound.extends_found (h : d.Sound s current loose) {k o : Nat} (hk : k ∈ loose)
    (ho : d.nodeOf? o = none) : d.Extends (d.found k o) current loose (loose.erase k) where
  nodes _ _ hn _ := hn
  stops n hn := by
    refine ⟨hn.1, fun hm => hn.2.1 (List.mem_of_mem_erase hm), fun o' ho' hn' => ?_⟩
    rcases found_cases hn' with ⟨-, rfl⟩ | ⟨hne, hn'⟩
    · exact hn.2.1 hk
    · exact hn.2.2 o' (ho'.imp (fun hm => (List.mem_cons.1 hm).resolve_left hne) id) hn'
  places o' n hn := by
    rw [nodeOf?_found, if_neg, hn]
    rintro rfl
    cases ho.symm.trans hn
  fresh _ _ hn := by
    rcases found_cases hn with ⟨-, rfl⟩ | ⟨-, hn⟩
    · exact .inr (h.loose_pending hk)
    · exact .inl hn

/-- A loose node becomes the one of an offset that has none. -/
theorem Sound.found (h : d.Sound s current loose) {k o : Nat} (hk : k ∈ loose)
    (ho : d.nodeOf? o = none) (hc : o ∉ current) :
    (d.found k o).Sound s current (loose.erase k) := by
  have hmem : ∀ {n : Nat}, n ∈ loose.erase k ↔ n ≠ k ∧ n ∈ loose :=
    h.loose_nodup.mem_erase_iff
  have hext := h.extends_found hk ho
  have hnot : ∀ {o' : Nat}, d.nodeOf? o' ≠ some k := fun h' => (h.placed h').2.1 hk
  have hpk := h.loose_pending hk
  exact {
    start := hext.places 0 0 h.start
    todo_nodup := by
      refine List.nodup_cons.2 ⟨fun hm => ?_, h.todo_nodup⟩
      obtain ⟨-, n, hn, -⟩ := h.todo_placed hm
      cases ho.symm.trans hn
    todo_placed := fun {o'} ho' => by
      rcases List.mem_cons.1 ho' with rfl | ho'
      · exact ⟨hc, k, by rw [nodeOf?_found, if_pos rfl], hpk⟩
      · obtain ⟨hc', n, hn, hp⟩ := h.todo_placed ho'
        exact ⟨hc', n, hext.places o' n hn, hp⟩
    placed := fun hn => by
      rcases found_cases hn with ⟨-, rfl⟩ | ⟨-, hn⟩
      · refine ⟨lt_size_of_pending hpk, fun hm => (hmem.1 hm).1 rfl, fun a b hab => ?_⟩
        cases hpk.symm.trans hab
      · obtain ⟨hlt, hl, hb⟩ := h.placed hn
        exact ⟨hlt, fun hm => hl (hmem.1 hm).2, hb⟩
    placed_inj := fun h₁ h₂ => by
      rcases found_cases h₁ with ⟨e₁, rfl⟩ | ⟨-, h₁⟩
      · rcases found_cases h₂ with ⟨e₂, -⟩ | ⟨-, h₂⟩
        · rw [e₁, e₂]
        · exact absurd h₂ hnot
      · rcases found_cases h₂ with ⟨-, e₂⟩ | ⟨-, h₂⟩
        · exact absurd (e₂ ▸ h₁) hnot
        · exact h.placed_inj h₁ h₂
    loose_pending := fun hm => h.loose_pending (hmem.1 hm).2
    loose_nodup := h.loose_nodup.erase k
    incomplete := fun {n} => by
      rw [show n ∈ (d.found k o).incomplete ↔ n = k ∨ n ∈ d.incomplete from
        Ascending.mem_insert, h.incomplete, hmem]
      show _ ↔ d.nodes[n]? = some .pending ∧ _
      by_cases hn : n = k <;> simp [hn, hpk]
    shown := fun hn ht hcur => by
      rcases found_cases hn with ⟨rfl, -⟩ | ⟨-, hn⟩
      · exact absurd List.mem_cons_self ht
      · exact (h.shown hn (fun hm => ht (List.mem_cons_of_mem _ hm)) hcur).mono
          hext.nodes hext.stops hext.places hext.fresh
    drawn := h.drawn
    links := h.links
    test_of_branch := h.test_of_branch
    branch_of_test := h.branch_of_test
    own := h.own }

/-- A loose node is left without a way out. -/
theorem Sound.leave (h : d.Sound s current loose) {k : Nat} (hk : k ∈ loose) :
    ({ d with incomplete := d.incomplete.insert k } : Draft).Sound s current (loose.erase k) ∧
      d.Extends { d with incomplete := d.incomplete.insert k } current loose (loose.erase k) := by
  have hmem : ∀ {n : Nat}, n ∈ loose.erase k ↔ n ≠ k ∧ n ∈ loose :=
    h.loose_nodup.mem_erase_iff
  have hext : d.Extends { d with incomplete := d.incomplete.insert k } current loose
      (loose.erase k) :=
    ⟨fun _ _ hn _ => hn, fun _ hn => ⟨hn.1, fun hm => hn.2.1 (hmem.1 hm).2, hn.2.2⟩,
      fun _ _ hn => hn, fun _ _ hn => .inl hn⟩
  refine ⟨⟨h.start, h.todo_nodup, h.todo_placed, ?_, h.placed_inj, ?_, h.loose_nodup.erase k, ?_,
    ?_, h.drawn, h.links, h.test_of_branch, h.branch_of_test, h.own⟩, hext⟩
  · intro o n hn
    obtain ⟨hlt, hl, hb⟩ := h.placed hn
    exact ⟨hlt, fun hm => hl (hmem.1 hm).2, hb⟩
  · exact fun hm => h.loose_pending (hmem.1 hm).2
  · intro n
    rw [show n ∈ d.incomplete.insert k ↔ n = k ∨ n ∈ d.incomplete from Ascending.mem_insert,
      h.incomplete, hmem]
    by_cases hn : n = k <;> simp [hn, h.loose_pending hk]
  · exact fun hn ht hc => (h.shown hn ht hc).mono hext.nodes hext.stops hext.places hext.fresh

/-- A loose node comes to stand for where control goes next. -/
theorem Sound.resolve (h : d.Sound s current loose) {k : Nat} (hk : k ∈ loose)
    (hc : ∀ o ∈ current, d.nodeOf? o ≠ none) (target : Option Nat) :
    (d.resolve k target).Sound s current (loose.erase k) ∧
      d.Extends (d.resolve k target) current loose (loose.erase k) ∧
      Arrives ((d.resolve k target).nodes[·]?) ((d.resolve k target).Stops current (loose.erase k))
        (d.resolve k target).nodeOf? k target := by
  have hpk := h.loose_pending hk
  have hlt := lt_size_of_pending hpk
  have hnot : ∀ {o : Nat}, d.nodeOf? o ≠ some k := fun h' => (h.placed h').2.1 hk
  unfold Draft.resolve
  split
  · obtain ⟨hs, he⟩ := h.leave hk
    exact ⟨hs, he, hpk, h.loose_nodup.not_mem_erase, fun _ _ => hnot⟩
  · next o =>
    split
    · next m hm =>
      obtain ⟨hm', hml, hb⟩ := h.placed hm
      exact ⟨h.connect hpk (.inl hk) trivial (by simp) hm' hb (fun h => absurd rfl h),
        (h.fills_connect hpk (.inl hk)).extends,
        .inr ⟨m, (nodes_connect hlt).trans (if_pos rfl), hm, fun _ => hnot⟩⟩
    · next hm =>
      exact ⟨h.found hk hm fun ho => hc o ho hm, h.extends_found hk hm,
        .inl (by rw [nodeOf?_found, if_pos rfl])⟩

/-- The offset in work is shown. -/
theorem Sound.finish {o : Nat} (h : d.Sound s [o] [])
    (ho : ∀ n, d.nodeOf? o = some n →
      Shows (d.nodes[·]?) (d.Stops [] []) d.nodeOf? n (s.readAt? o)) : d.Sound s [] [] := by
  refine ⟨h.start, h.todo_nodup, ?_, h.placed, h.placed_inj, h.loose_pending, .nil, h.incomplete,
    ?_, h.drawn, h.links, h.test_of_branch, h.branch_of_test, h.own⟩
  · exact fun ho' => ⟨by simp, (h.todo_placed ho').2⟩
  · intro o' n hn ht _
    by_cases heq : o' = o
    · exact heq ▸ ho n (heq ▸ hn)
    · refine (h.shown hn ht (by simpa using heq)).mono (fun _ _ h _ => h) ?_ (fun _ _ h => h)
        fun _ _ h => .inl h
      exact fun x hx => ⟨hx.1, hx.2.1, fun o ho => hx.2.2 o (ho.imp id (by simp))⟩

/-! ## The step of one action -/

/-- Two arms are resolved one after the other. -/
theorem Sound.arms {k t next : Nat} {displacement : Int16} {o : Nat}
    (h : d.Sound s [o] [t + 2, t + 1]) (hko : d.nodeOf? o = some k)
    (hk : d.nodes[k]? = some (.simple ⟨.ifTest, t⟩))
    (ht : d.nodes[t]? = some (.branch ⟨.ifTrue, t + 1⟩ ⟨.ifFalse, t + 2⟩))
    (hr : s.readAt? o = some (.branch displacement, next)) :
    ((d.resolve (t + 2) (some next)).resolve (t + 1) (branchTarget next displacement)).Sound
      s [] [] := by
  have hc : ∀ o' ∈ [o], d.nodeOf? o' ≠ none := by simp [hko]
  obtain ⟨h₁, e₁, a₁⟩ := h.resolve (k := t + 2) (by simp) hc (some next)
  have hc₁ : ∀ o' ∈ [o], (d.resolve (t + 2) (some next)).nodeOf? o' ≠ none := by
    simp [e₁.places _ _ hko]
  rw [List.erase_cons_head] at h₁ e₁ a₁
  obtain ⟨h₂, e₂, a₂⟩ := h₁.resolve (k := t + 1) (by simp) hc₁ (branchTarget next displacement)
  rw [List.erase_cons_head] at h₂ e₂ a₂
  refine h₂.finish fun n hn => ?_
  obtain rfl : k = n := Option.some.inj ((e₂.places _ _ (e₁.places _ _ hko)).symm.trans hn)
  have hstops : ∀ x, (((d.resolve (t + 2) (some next)).resolve (t + 1)
      (branchTarget next displacement)).Stops [o] [] x →
      ((d.resolve (t + 2) (some next)).resolve (t + 1)
        (branchTarget next displacement)).Stops [] [] x) :=
    fun x hx => ⟨hx.1, hx.2.1, fun o ho => hx.2.2 o (ho.imp id (by simp))⟩
  rw [hr]
  refine ⟨t, t + 1, t + 2, e₂.nodes _ _ (e₁.nodes _ _ hk (by simp)) (by simp),
    e₂.nodes _ _ (e₁.nodes _ _ ht (by simp)) (by simp), ?_, ?_⟩
  · exact a₂.mono (fun _ _ h _ => h) hstops (fun _ _ h => h) fun _ _ h => .inl h
  · exact (e₂.arrives a₁).mono (fun _ _ h _ => h) hstops (fun _ _ h => h) fun _ _ h => .inl h

section Step

variable {o k next : Nat} (h : d.Sound s [o] []) (hko : d.nodeOf? o = some k)
  (hk : d.nodes[k]? = some .pending)
include h hko hk

/-- The node of a branch in work leads to a test of its own. -/
theorem Sound.step_branch {displacement : Int16}
    (hr : s.readAt? o = some (.branch displacement, next)) :
    (d.step k (.branch displacement) next).Sound s [] [] := by
  have hlt := lt_size_of_pending hk
  have h₃ := h.grow.grow.grow
  simp only [size_grow] at h₃
  rw [Draft.step]
  set t := d.nodes.size with ht
  have hb := h₃.branchAt (o := o) (k := k) (t := t) (a := t + 1) (b := t + 2) (by simp) hko
    (nodes_grow (nodes_grow (nodes_grow hk))) (by simp)
    (fun hn hl => h.links (nodes_of_grow (nodes_of_grow (nodes_of_grow hn hl) hl) hl) hl)
    (by simp) (by simp) (by simp) (by simp) (by simp)
  have hnode : ∀ {n : Nat}, (d.grow.grow.grow.branchAt k t (t + 1) (t + 2)).nodes[n]? =
      if n = t then some (.branch ⟨.ifTrue, t + 1⟩ ⟨.ifFalse, t + 2⟩)
      else if n = k then some (.simple ⟨.ifTest, t⟩) else d.grow.grow.grow.nodes[n]? :=
    nodes_branchAt (by simp; omega) (by simp; omega)
  have herase : [t + 1 + 1, t + 1, t].erase t = [t + 2, t + 1] := by
    rw [List.erase_cons_tail (by rw [beq_iff_eq]; omega), List.erase_cons_tail (by simp),
      List.erase_cons_head]
  rw [herase] at hb
  refine hb.arms hko ?_ ?_ hr
  · rw [hnode, if_neg (by omega), if_pos rfl]
  · rw [hnode, if_pos rfl]

/-- The node of a jump in work leads to the node of its target, or nowhere when it has none. -/
theorem Sound.step_jump {displacement : Int16}
    (hr : s.readAt? o = some (.jump displacement, next)) :
    (d.step k (.jump displacement) next).Sound s [] [] := by
  have hlt := lt_size_of_pending hk
  rw [Draft.step]
  split
  · next ht =>
    refine h.finish fun n hn => ?_
    obtain rfl : k = n := Option.some.inj (hko.symm.trans hn)
    rw [hr]
    simp only [Shows, ht]
    refine ⟨hk, by simp, ?_⟩
    rintro o' (ho' | ho') hk'
    · exact (h.todo_placed ho').1 (by simp [h.placed_inj hk' hko])
    · simp at ho'
  · next target ht =>
    split
    · next m hm =>
      obtain ⟨hm', -, hb⟩ := h.placed hm
      refine (h.connect (e := .plain) hk (.inr ⟨o, by simp, hko⟩) trivial (by simp) hm' hb
        fun h => absurd rfl h).finish fun n hn => ?_
      obtain rfl : k = n := Option.some.inj (hko.symm.trans hn)
      rw [hr]
      simp only [Shows, ht]
      exact ⟨m, (nodes_connect hlt).trans (if_pos rfl), hm⟩
    · next hm =>
      have hne : target ∉ [o] := by
        rw [List.mem_singleton]
        rintro rfl
        cases hko.symm.trans hm
      have hnew : d.nodes.size ∈ d.nodes.size :: [] := List.mem_singleton.2 rfl
      have h₂ := h.grow.found hnew hm hne
      rw [List.erase_cons_head] at h₂
      have hko' := (h.grow.extends_found hnew hm).places o k hko
      have hk' : (d.grow.found d.nodes.size target).nodes[k]? = some .pending := nodes_grow hk
      have hdest : (d.grow.found d.nodes.size target).nodes[d.nodes.size]? = some .pending := by
        simp [Draft.found, Draft.grow]
      have hb : ∀ a b, (d.grow.found d.nodes.size target).nodes[d.nodes.size]? ≠
          some (.branch a b) := by simp [hdest]
      refine (h₂.connect (e := .plain) hk' (.inr ⟨o, by simp, hko'⟩)
        trivial (by simp) (lt_size_of_pending hdest) hb fun h => absurd rfl h).finish fun n hn => ?_
      obtain rfl : k = n := Option.some.inj (hko'.symm.trans hn)
      rw [hr]
      simp only [Shows, ht]
      refine ⟨d.nodes.size, (nodes_connect (lt_size_of_pending hk')).trans (if_pos rfl), ?_⟩
      exact nodeOf?_found.trans (if_pos rfl)

/-- The node of another action in work leads on by the edge of the action. -/
theorem Sound.step_action {action : Action} (hbranch : ∀ displacement, action ≠ .branch displacement)
    (hjump : ∀ displacement, action ≠ .jump displacement)
    (hr : s.readAt? o = some (action, next)) : (d.step k action next).Sound s [] [] := by
  have hlt := lt_size_of_pending hk
  have hstep : d.step k action next =
      (d.grow.connect k (.action action) d.nodes.size).resolve d.nodes.size (some next) := by
    unfold Draft.step
    split
    · exact absurd rfl (hbranch _)
    · exact absurd rfl (hjump _)
    · rfl
  rw [hstep]
  have hdest : d.grow.nodes[d.nodes.size]? = some .pending := by simp [Draft.grow]
  have hkd : d.nodes.size ≠ k := by omega
  have h₂ := h.grow.connect (e := .action action) (nodes_grow hk) (.inr ⟨o, by simp, hko⟩) trivial
    (by simp) (lt_size_of_pending hdest) (fun a b hab => by cases hdest.symm.trans hab)
    fun _ _ _ _ hn hl => Nat.ne_of_lt (h.links (nodes_of_grow hn hl) hl)
  rw [List.erase_of_not_mem (by simpa using hkd.symm)] at h₂
  have hk₂ : (d.grow.connect k (.action action) d.nodes.size).nodes[k]? =
      some (.simple ⟨.action action, d.nodes.size⟩) :=
    (nodes_connect (by simp; omega)).trans (if_pos rfl)
  obtain ⟨h₃, e₃, a₃⟩ := h₂.resolve (k := d.nodes.size) (by simp) (by
    intro o' ho'
    obtain rfl := List.mem_singleton.1 ho'
    exact fun hn => by cases hko.symm.trans hn) (some next)
  rw [List.erase_cons_head] at h₃ e₃ a₃
  refine h₃.finish fun n hn => ?_
  obtain rfl : k = n := Option.some.inj ((e₃.places o k hko).symm.trans hn)
  rw [hr]
  unfold Shows
  split
  · next h => simp at h
  · next h => exact absurd (congrArg Prod.fst (Option.some.inj h)) (hbranch _)
  · next h => exact absurd (congrArg Prod.fst (Option.some.inj h)) (hjump _)
  · next h =>
    obtain ⟨rfl, rfl⟩ := Prod.mk.inj (Option.some.inj h)
    refine ⟨d.nodes.size, e₃.nodes _ _ hk₂ (by simp), a₃.mono (fun _ _ h _ => h) ?_
      (fun _ _ h => h) fun _ _ h => .inl h⟩
    exact fun x hx => ⟨hx.1, hx.2.1, fun o ho => hx.2.2 o (ho.imp id (by simp))⟩

/-- The node of the offset in work gets the way out that the action there calls for. -/
theorem Sound.step {action : Action} (hr : s.readAt? o = some (action, next)) :
    (d.step k action next).Sound s [] [] := by
  by_cases hbranch : ∀ displacement, action ≠ .branch displacement
  · by_cases hjump : ∀ displacement, action ≠ .jump displacement
    · exact h.step_action hko hk hbranch hjump hr
    · obtain ⟨displacement, rfl⟩ := not_forall_not.1 hjump
      exact h.step_jump hko hk hr
  · obtain ⟨displacement, rfl⟩ := not_forall_not.1 hbranch
    exact h.step_branch hko hk hr

end Step

end Draft

end FlowGraph

end ScriptRecovery
