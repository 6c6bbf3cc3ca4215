import ScriptRecovery.Proofs.Cleanup.Cleaning

/-!
# Names as a function of the script

A script with names in place of its builtins (`Script.named`): at every depth the global object is
an identifier and a trace is a call, whose argument is the value of the trace with names in it.  The
same is said of trees of forms (`Rose.named`).  There a single edit makes no difference, since what
comes in place of a builtin has the names that the builtin would have got.  Where no builtin is left
a tree has its names.

The edits are carried out in two phases, the global object first, and the second phase builds traces
anew that the first one may have changed below.  A use of the global object has nothing below it and
below a trace there is no other statement, so that what is still to be named never goes
(`SyntaxTree.Editable.name_global`, `SyntaxTree.Editable.name_trace`).
-/

namespace ScriptRecovery

open Rose

/-! ## Named scripts -/

mutual

/-- An expression with a name in place of the global object. -/
def Expr.named (names : BuiltinNames) : Expr → Expr
  | .atom .global _ => .identifier names.global
  | .unary op argument loc => .unary op (argument.named names) loc
  | .binary op left right loc => .binary op (left.named names) (right.named names) loc
  | .logical op left right loc => .logical op (left.named names) (right.named names) loc
  | .assignment op target value loc =>
      .assignment op (target.named names) (value.named names) loc
  | .member base key loc => .member (base.named names) (key.named names) loc
  | .call callee arguments loc => .call (callee.named names) (Expr.namedAll names arguments) loc
  | .sequence expressions loc => .sequence (Expr.namedAll names expressions) loc
  | .conditional test truthy falsy loc =>
      .conditional (test.named names) (truthy.named names) (falsy.named names) loc
  | .lookup name loc => .lookup (name.named names) loc
  | .propertyName index loc => .propertyName (index.named names) loc
  | .initArray itemCount loc => .initArray (itemCount.named names) loc
  | .initObject itemCount loc => .initObject (itemCount.named names) loc
  | e => e

/-- A target with a name in place of the global object. -/
def Target.named (names : BuiltinNames) : Target → Target
  | .member base key loc => .member (base.named names) (key.named names) loc
  | p => p

/-- Expressions in order with names in place of the global object. -/
def Expr.namedAll (names : BuiltinNames) : List Expr → List Expr
  | [] => []
  | e :: es => e.named names :: Expr.namedAll names es

end

mutual

/-- A statement with names in place of builtins. -/
def Stmt.named (names : BuiltinNames) : Stmt → Stmt
  | .block body loc => .block (Stmt.namedAll names body) loc
  | .expression e loc => .expression (e.named names) loc
  | .branch test truthy none loc => .branch (test.named names) (truthy.named names) none loc
  | .branch test truthy (some falsy) loc =>
      .branch (test.named names) (truthy.named names) (some (falsy.named names)) loc
  | .ret argument loc => .ret (argument.map (Expr.named names)) loc
  | .raise argument loc => .raise (argument.named names) loc
  | .setVariable name value loc => .setVariable (name.named names) (value.named names) loc
  | .declareVariable name value loc =>
      .declareVariable (name.named names) (value.map (Expr.named names)) loc
  | .push value loc => .push (value.named names) loc
  | .trace value _ =>
      .expression (.call (.identifier names.trace) [value.named names] none) none
  | .stackCall target callee argCount loc =>
      .stackCall (target.map (Target.named names)) (callee.named names) (argCount.named names) loc
  | s => s

/-- Statements in order with names in place of builtins. -/
def Stmt.namedAll (names : BuiltinNames) : List Stmt → List Stmt
  | [] => []
  | s :: ss => s.named names :: Stmt.namedAll names ss

end

namespace Script

/-- A script with names in place of builtins. -/
def named (names : BuiltinNames) (s : Script) : Script :=
  { s with body := Stmt.namedAll names s.body }

/-- Whether a builtin is used somewhere in a script. -/
def usesBuiltins (s : Script) : Bool := s.rose.labels.any (·.kind.isBuiltin)

end Script

/-! ## Named trees -/

namespace Rose

variable {names : BuiltinNames}

mutual

/-- A tree of forms with names in place of builtins. -/
def named (names : BuiltinNames) : Rose Form → Rose Form
  | .node form parts =>
      match form.kind with
      | .atom .global => (Expr.identifier names.global).rose
      | .trace =>
          .node ⟨.expression, none⟩
            [.node ⟨.call, none⟩ ((Expr.identifier names.trace).rose :: namedAll names parts)]
      | _ => .node form (namedAll names parts)

/-- Trees of forms in a row with names in place of builtins. -/
def namedAll (names : BuiltinNames) : List (Rose Form) → List (Rose Form)
  | [] => []
  | r :: rs => r.named names :: namedAll names rs

end

/-- A node that is no builtin stays what it is. -/
theorem named_node {form : Form} (h : form.kind.isBuiltin = false) (parts : List (Rose Form)) :
    (Rose.node form parts).named names = .node form (namedAll names parts) := by
  obtain ⟨hglobal, htrace⟩ : form.kind ≠ .atom .global ∧ form.kind ≠ .trace := by
    simpa [Kind.isBuiltin] using h
  rw [named]
  split
  · next hk => exact absurd hk hglobal
  · next hk => exact absurd hk htrace
  · rfl

theorem namedAll_append (rs rs' : List (Rose Form)) :
    namedAll names (rs ++ rs') = namedAll names rs ++ namedAll names rs' := by
  induction rs with
  | nil => rfl
  | cons r rs ih => rw [List.cons_append, namedAll, namedAll, ih, List.cons_append]

/-- Having the same names goes through contexts. -/
theorem congruence_named : Congruence fun r r' => r'.named names = r.named names where
  refl _ := rfl
  trans h h' := h'.trans h
  plug {C x x'} h := by
    induction C with
    | nil => exact h
    | cons c C ih => simp only [Context.plug, named, namedAll_append, namedAll, ih]

/-- What comes in place of a builtin has the names that the builtin would have got. -/
theorem Named.named_eq {r r' : Rose Form} (h : Named names r r') :
    r'.named names = r.named names := by
  cases h with
  | global loc => rfl
  | trace value loc => rfl

mutual

/-- A tree without builtins has its names. -/
theorem named_eq_self : ∀ (r : Rose Form), (∀ form ∈ r.labels, form.kind.isBuiltin = false) →
    r.named names = r
  | .node form parts, h => by
      rw [named_node (h form (by simp)), namedAll_eq_self parts fun f hf => h f (by simp [hf])]

theorem namedAll_eq_self : ∀ (rs : List (Rose Form)),
    (∀ form ∈ labelsAll rs, form.kind.isBuiltin = false) → namedAll names rs = rs
  | [], _ => rfl
  | r :: rs, h => by
      rw [namedAll, named_eq_self r fun f hf => h f (by simp [labelsAll, hf]),
        namedAll_eq_self rs fun f hf => h f (by simp [labelsAll, hf])]

end

mutual

/-- No builtin is left where there are names. -/
theorem not_isBuiltin_named : ∀ (r : Rose Form), ∀ form ∈ (r.named names).labels,
    form.kind.isBuiltin = false
  | .node form parts => by
      have hparts := not_isBuiltin_namedAll parts
      have hname : ∀ name, (⟨.atom (.identifier name), none⟩ : Form).kind.isBuiltin = false :=
        fun _ => rfl
      rw [named]
      split
      · simpa [Expr.identifier, Expr.rose, labelsAll] using hname names.global
      · simpa [Expr.identifier, Expr.rose, labelsAll, Kind.isBuiltin] using hparts
      · next hglobal htrace =>
        have hform : form.kind.isBuiltin = false := by
          simp only [Kind.isBuiltin, Bool.or_eq_false_iff, decide_eq_false_iff_not]
          exact ⟨hglobal, htrace⟩
        simpa [hform] using hparts

theorem not_isBuiltin_namedAll : ∀ (rs : List (Rose Form)),
    ∀ form ∈ labelsAll (namedAll names rs), form.kind.isBuiltin = false
  | [] => by simp [namedAll, labelsAll]
  | r :: rs => by
      rw [namedAll, labelsAll]
      intro form hform
      exact (List.mem_append.1 hform).elim (not_isBuiltin_named r form)
        (not_isBuiltin_namedAll rs form)

end

/-- Names change a tree exactly when it has builtins. -/
theorem named_ne_iff {r : Rose Form} :
    r.named names ≠ r ↔ r.labels.any (·.kind.isBuiltin) = true := by
  constructor
  · intro hne
    by_contra hnone
    exact hne (named_eq_self r (by simpa using hnone))
  · intro hany hsame
    obtain ⟨form, hform, hk⟩ := List.any_eq_true.1 hany
    rw [← hsame] at hform
    rw [not_isBuiltin_named r form hform] at hk
    cases hk

end Rose

/-! ## Trees of named scripts -/

section Syntax

variable {names : BuiltinNames}

mutual

theorem Expr.rose_named : ∀ e : Expr, (e.named names).rose = e.rose.named names
  | .atom a loc => by cases a <;> rfl
  | .unary _ argument _ => by
      simp [Expr.named, Expr.rose, Rose.named, Rose.namedAll, argument.rose_named]
  | .binary _ left right _ | .logical _ left right _ => by
      simp [Expr.named, Expr.rose, Rose.named, Rose.namedAll, left.rose_named, right.rose_named]
  | .assignment _ target value _ => by
      simp [Expr.named, Expr.rose, Rose.named, Rose.namedAll, target.rose_named,
        value.rose_named]
  | .member base key _ => by
      simp [Expr.named, Expr.rose, Rose.named, Rose.namedAll, base.rose_named, key.rose_named]
  | .call callee arguments _ => by
      simp [Expr.named, Expr.rose, Rose.named, Rose.namedAll, callee.rose_named,
        Expr.roses_namedAll arguments]
  | .sequence expressions _ => by
      simp [Expr.named, Expr.rose, Rose.named, Expr.roses_namedAll expressions]
  | .conditional test truthy falsy _ => by
      simp [Expr.named, Expr.rose, Rose.named, Rose.namedAll, test.rose_named,
        truthy.rose_named, falsy.rose_named]
  | .lookup e _ | .propertyName e _ | .initArray e _ | .initObject e _ => by
      simp [Expr.named, Expr.rose, Rose.named, Rose.namedAll, e.rose_named]
  | .input _ => rfl

theorem Target.rose_named : ∀ p : Target, (p.named names).rose = p.rose.named names
  | .member base key _ => by
      simp [Target.named, Target.rose, Rose.named, Rose.namedAll, base.rose_named,
        key.rose_named]
  | .identifier _ _ | .register _ _ | .temporary _ _ => rfl

theorem Expr.roses_namedAll : ∀ es : List Expr,
    Expr.roses (Expr.namedAll names es) = Rose.namedAll names (Expr.roses es)
  | [] => rfl
  | e :: es => by
      rw [Expr.namedAll, Expr.roses, e.rose_named, Expr.roses_namedAll es]
      rfl

end

mutual

/-- Statements and trees of forms have the same names. -/
theorem Stmt.rose_named : ∀ s : Stmt, (s.named names).rose = s.rose.named names
  | .block body _ => by
      simp [Stmt.named, Stmt.rose, Rose.named, Stmt.roses_namedAll body]
  | .branch test truthy none _ => by
      simp [Stmt.named, Stmt.rose, Rose.named, Rose.namedAll, test.rose_named,
        truthy.rose_named]
  | .branch test truthy (some falsy) _ => by
      simp [Stmt.named, Stmt.rose, Rose.named, Rose.namedAll, test.rose_named,
        truthy.rose_named, falsy.rose_named]
  | .expression e _ | .raise e _ | .push e _ => by
      simp [Stmt.named, Stmt.rose, Rose.named, Rose.namedAll, e.rose_named]
  | .ret argument _ => by
      cases argument <;>
        simp [Stmt.named, Stmt.rose, Rose.named, Rose.namedAll, Expr.rose_named]
  | .setVariable name value _ => by
      simp [Stmt.named, Stmt.rose, Rose.named, Rose.namedAll, name.rose_named,
        value.rose_named]
  | .declareVariable name value _ => by
      cases value <;>
        simp [Stmt.named, Stmt.rose, Rose.named, Rose.namedAll, Expr.rose_named]
  | .trace value _ => by
      simp [Stmt.named, Stmt.rose, Expr.rose, Expr.roses, Rose.named, Rose.namedAll,
        value.rose_named]
  | .stackCall target callee argCount _ => by
      cases target <;>
        simp [Stmt.named, Stmt.rose, Rose.named, Rose.namedAll, Expr.rose_named,
          Target.rose_named]
  | .empty _ | .constantPool _ _ => rfl

theorem Stmt.roses_namedAll : ∀ ss : List Stmt,
    Stmt.roses (Stmt.namedAll names ss) = Rose.namedAll names (Stmt.roses ss)
  | [] => rfl
  | s :: ss => by
      rw [Stmt.namedAll, Stmt.roses, s.rose_named, Stmt.roses_namedAll ss]
      rfl

end

theorem Script.rose_named (s : Script) : (s.named names).rose = s.rose.named names := by
  simp [Script.named, Script.rose, Rose.named, Stmt.roses_namedAll]

/-- Names change a script exactly when it uses builtins. -/
theorem Script.named_ne_iff (s : Script) : s.named names ≠ s ↔ s.usesBuiltins = true := by
  rw [← Script.rose_injective.ne_iff, s.rose_named, Rose.named_ne_iff]
  rfl

end Syntax

/-! ## Edits -/

namespace SyntaxTree

variable {t : SyntaxTree} {r : Rose (Nat × Form)} {names : BuiltinNames}

/-- There are nodes to name exactly when there are builtins. -/
theorem Represents.builtins_ne_nil (h : t.Represents r) :
    t.builtins ≠ [] ↔ r.forms.labels.any (·.kind.isBuiltin) = true := by
  rw [← List.length_pos_iff, h.length_builtins, List.countP_pos_iff, List.any_eq_true]

/-- Naming builtins makes what the names of a tree are. -/
theorem Editable.makes_nameBuiltins (h : t.Editable r) (names : BuiltinNames) :
    Makes (Rose.named names) t r (t.nameBuiltins names) := by
  obtain ⟨t', r', hok, h', hsteps, hnone⟩ := h.nameBuiltins names
  rw [SyntaxTree.nameBuiltins, Outcome.toExcept_ofEdits] at hok
  have hfix : r'.forms.named names = r'.forms := named_eq_self _ hnone
  have hforms : r'.forms = r.forms.named names :=
    hfix.symm.trans (congruence_named.of_steps Named.named_eq hsteps)
  refine ⟨t', r', _, Outcome.ofEdits_eq_ok hok, h', hforms, hfix, ?_, fun hidle => ?_⟩
  · rw [hforms, named_ne_iff, ← h.represents.builtins_ne_nil]
    simp
  · rw [Bool.not_eq_false', List.isEmpty_iff] at hidle
    rw [hidle] at hok
    exact (Except.ok.inj hok).symm

/-! ## Two phases -/

/-- What a walk notes of the builtins among nodes in a row. -/
theorem foldl_noteBuiltin {ns : List (Nat × Form)} (hk : ∀ a ∈ ns, t.kind? a.1 = some a.2.kind)
    (noted : List Nat × List Nat) : ns.foldl (fun s a => t.noteBuiltin a.1 s) noted =
      (noted.1 ++ (ns.filter (·.2.kind = .atom .global)).map Prod.fst,
        noted.2 ++ (ns.filter (·.2.kind = .trace)).map Prod.fst) := by
  induction ns generalizing noted with
  | nil => simp
  | cons a ns ih =>
    rw [List.foldl_cons, ih fun a ha => hk a (by simp [ha]), noteBuiltin, hk a (by simp)]
    by_cases hglobal : a.2.kind = .atom .global
    · simp [hglobal]
    · by_cases htrace : a.2.kind = .trace
      · simp [htrace]
      · simp [hglobal, htrace]

/-- Whether numbers are those of nodes of a kind. -/
def AllOf (k : Kind) (r : Rose (Nat × Form)) (ns : List Nat) : Prop :=
  ∀ n ∈ ns, ∃ loc, (n, (⟨k, loc⟩ : Form)) ∈ r.labels

/-- The first phase names the global object, and the traces stay. -/
theorem Editable.applyAll_nameGlobal (names : BuiltinNames) {globals traces : List Nat}
    (h : t.Editable r) (hn : (globals ++ traces).Nodup) (hglobals : AllOf (.atom .global) r globals)
    (htraces : AllOf .trace r traces) :
    Outcome.applyAll (nameGlobal names) t globals =
        Outcome.applyAll (SyntaxTree.nameBuiltin names) t globals ∧
      ∃ t' r', Outcome.applyAll (SyntaxTree.nameBuiltin names) t globals = ⟨t', .ok true⟩ ∧
        t'.Editable r' ∧ AllOf .trace r' traces := by
  induction globals generalizing t r with
  | nil => exact ⟨rfl, t, r, rfl, h, htraces⟩
  | cons n globals ih =>
    rw [List.cons_append, List.nodup_cons] at hn
    have hne : ∀ m ∈ globals ++ traces, m ≠ n := by
      rintro m hm rfl
      exact hn.1 hm
    obtain ⟨loc, hl⟩ := hglobals n (by simp)
    obtain ⟨t₁, r₁, hok, h₁, -, hkeep⟩ := h.name_global names hl
    have hsame : t.nameBuiltin names n = .ok t₁ := by
      simp only [SyntaxTree.nameBuiltin, h.represents.kind?_eq_some hl]
      exact hok
    have hrest : ∀ {k ns}, ns ⊆ globals ++ traces → AllOf k r ns → AllOf k r₁ ns :=
      fun hsub hall m hm => (hall m hm).imp fun loc hl => hkeep m (hne m (hsub hm)) _ hl
    simp only [Outcome.applyAll, hsame, nameGlobal, hok]
    exact ih h₁ hn.2 (hrest (by simp) fun m hm => hglobals m (List.mem_cons_of_mem _ hm))
      (hrest (by simp) htraces)

/-- The second phase finds the value of every trace. -/
theorem Editable.applyAll_nameTrace (names : BuiltinNames) {traces : List Nat}
    (h : t.Editable r) (hn : traces.Nodup) (htraces : AllOf .trace r traces) :
    Outcome.applyAll (nameTrace names) t traces =
        Outcome.applyAll (SyntaxTree.nameBuiltin names) t traces ∧
      ∃ t', Outcome.applyAll (SyntaxTree.nameBuiltin names) t traces = ⟨t', .ok true⟩ := by
  induction traces generalizing t r with
  | nil => exact ⟨rfl, t, rfl⟩
  | cons n traces ih =>
    rw [List.nodup_cons] at hn
    obtain ⟨loc, hl⟩ := htraces n (by simp)
    obtain ⟨value, hread, ⟨v, hchild, hvalue⟩, t₁, r₁, hok, h₁, -, hkeep⟩ := h.name_trace names hl
    have hsame : t.nameBuiltin names n = .ok t₁ := by
      simp only [SyntaxTree.nameBuiltin, h.represents.kind?_eq_some hl, hread, bind, Except.bind]
      exact hok
    have htrace : nameTrace names t n = .ok t₁ := by
      simp only [nameTrace, hchild, hvalue, bind, Except.bind]
      exact hok
    simp only [Outcome.applyAll, hsame, htrace]
    refine ih h₁ hn.2 fun m hm => ?_
    obtain ⟨loc', hl'⟩ := htraces m (List.mem_cons_of_mem _ hm)
    have hmn : m ≠ n := by
      rintro rfl
      exact hn.1 hm
    exact ⟨loc', hkeep m hmn _ rfl hl'⟩

/-- The two phases after a walk name what naming one by one does. -/
theorem Tidy.sweepBuiltins_eq (htidy : t.Tidy r) (h : t.Editable r) (names : BuiltinNames) :
    t.sweepBuiltins names = t.nameBuiltins names := by
  have hk : ∀ a ∈ t.nodes, t.kind? a.1 = some a.2.kind := fun a ha =>
    h.represents.kind?_eq_some (h.represents.nodes ▸ ha)
  have hall : ∀ k, AllOf k r ((t.nodes.filter (·.2.kind = k)).map Prod.fst) := by
    intro k n hn
    obtain ⟨⟨k', loc⟩, hl, hk'⟩ := h.represents.mem_filter.1 hn
    obtain rfl : k' = k := by simpa using hk'
    exact ⟨loc, hl⟩
  obtain ⟨hfirst, t₁, r₁, hrun₁, h₁, htraces⟩ := h.applyAll_nameGlobal names
    (by simpa [builtins] using h.represents.nodup_builtins) (hall (.atom .global)) (hall .trace)
  obtain ⟨hsecond, t₂, hrun₂⟩ := h₁.applyAll_nameTrace names
    (h.represents.nodup_filter _) htraces
  have hrun : Outcome.applyAll (SyntaxTree.nameBuiltin names) t t.builtins = ⟨t₂, .ok true⟩ := by
    simp only [builtins, List.map_append, Outcome.applyAll_append, hrun₁, hrun₂]
  have hedits : t.nameBuiltins names = ⟨t₂, .ok !t.builtins.isEmpty⟩ := by
    refine Outcome.ofEdits_eq_ok ?_
    rw [hrun]
    rfl
  have hempty : ∀ globals traces : List Nat,
      (globals ++ traces).isEmpty = (globals.isEmpty && traces.isEmpty) := by
    intro globals traces
    cases globals <;> rfl
  rw [hedits, sweepBuiltins, htidy.traverse_onEnter, foldl_noteBuiltin hk]
  simp only [List.nil_append, hfirst, hrun₁, hsecond, hrun₂, builtins, List.map_append, hempty]

/-- Naming a builtin leaves a tidy arena tidy. -/
theorem Tidy.of_nameBuiltin {t' : SyntaxTree} {n : Nat} (h : t.Tidy r)
    (hok : t.nameBuiltin names n = .ok t') : ∃ r', t'.Tidy r' := by
  rw [SyntaxTree.nameBuiltin] at hok
  split at hok
  · obtain ⟨s, -, hok⟩ := bind_eq_ok.1 hok
    split at hok
    · exact h.of_replace (Stmt.wellFormed_rose (.expression _ none)) rfl hok
    · cases hok
  · exact h.of_replace (Expr.wellFormed_rose (.identifier names.global)) rfl hok

/-- What naming leaves is a tidy arena. -/
theorem Tidy.nameBuiltins (h : t.Tidy r) (names : BuiltinNames) :
    ∃ r', (t.nameBuiltins names).state.Tidy r' :=
  h.ofEdits (fun h hok => h.of_nameBuiltin hok) _

/-! ## Scripts -/

/-- After any calls on a new arena, and while no walk is under way, the script gets names in place
of its builtins, wherever they are, and nothing else changes.  Naming, in one phase or in two,
succeeds and answers whether the script used builtins, and a second time there is nothing left to
name. -/
theorem named_of_history (names : BuiltinNames) (s : Script) (calls : List Call)
    (hidle : (calls.foldl perform (ofScript s)).isWalked = false) :
    ∃ s', (calls.foldl perform (ofScript s)).toScript = .ok s' ∧ (calls = [] → s' = s) ∧
      (s'.named names ≠ s' ↔ s'.usesBuiltins = true) ∧
      Cleans (nameBuiltins names) (Script.named names) (calls.foldl perform (ofScript s)) s' ∧
      Cleans (sweepBuiltins names) (Script.named names) (calls.foldl perform (ofScript s)) s' := by
  obtain ⟨r, s', htidy, hread, hs', hnew⟩ := tidy_of_history s calls
  have h := htidy.editable (by simpa [isWalked] using hidle)
  have hnamed := h.cleans (fun h => h.makes_nameBuiltins names) Script.rose_named hs'
  obtain ⟨t', r', changed, hrun, h', -⟩ := h.makes_nameBuiltins names
  obtain ⟨r₁, hleft⟩ := htidy.nameBuiltins names
  rw [hrun] at hleft
  refine ⟨s', hread, hnew, s'.named_ne_iff, hnamed,
    hnamed.of_eq (htidy.sweepBuiltins_eq h names) ?_⟩
  rw [hrun]
  exact hleft.sweepBuiltins_eq (hleft.editable h'.readers) names

/-- The global object in a traced value, in the target of an assignment and among the arguments of
a call, in both arms of a choice. -/
theorem named_of_history_arms :
    let names : BuiltinNames := ⟨"_global", "console.log"⟩
    let arms (global : Expr) (trace : Expr → Stmt) : Script :=
      { body := [.branch (.string "a") (trace (.call (.identifier "f") [.string "c", global] none))
          (some (.block [trace (.assign (.member global (.string "b") none) global)] none)) none] }
    let s := arms (.atom .global (some 3)) fun value => .trace value (some 5)
    (s.named names = arms (.identifier "_global") fun value =>
        .expression (.call (.identifier "console.log") [value] none) none) ∧
      s.usesBuiltins = true ∧
      Cleans (sweepBuiltins names) (Script.named names) (ofScript s) s := by
  intro names arms s
  obtain ⟨s', -, hnew, -, -, hnamed⟩ := named_of_history names s [] rfl
  obtain rfl := hnew rfl
  exact ⟨rfl, rfl, hnamed⟩

end SyntaxTree

end ScriptRecovery
