import Blockwork.Proofs.DeclarationOrder

/-!
# Where a program mentions its variables

A place in a tree is the list of the numbers of the children on the way to it, so the order of a
walk from left to right is the lexicographic order of places. The names that a program notes as
declared are those that its tree mentions somewhere, in the order of their first places.

* `Expression.MentionedAt`, `Statement.MentionedAt`, `MentionedAt`: what is mentioned where, by the
  constructors of the trees. A procedure's own names are not mentioned in its body.
* `Walk`: a list of names is what a walk meets; one law for each way to put walks together.
* `Statement.listWalk`: what `Statement.listVariables` lists is what a walk meets.
* `FirstMentions`: names in the order of their first places.
* `Environment.Seeds`, `parse_seeds`: what a program starts with.
-/

namespace Blockwork

/-! ## Places -/

/-- The variable `x` is mentioned at a place in an expression. The operands of an operator are
numbered from left to right, and so are the arguments of a call. -/
inductive Expression.MentionedAt (x : String) : Expression → List Nat → Prop where
  | variable : MentionedAt x (.variable x) []
  | left {left right : Expression} {op : Operator} {place : List Nat}
    (h : MentionedAt x left place) : MentionedAt x (.binary left op right) (0 :: place)
  | right {left right : Expression} {op : Operator} {place : List Nat}
    (h : MentionedAt x right place) : MentionedAt x (.binary left op right) (1 :: place)
  | argument {name : String} {arguments : List Expression} {e : Expression} {i : Nat}
    {place : List Nat} (hi : arguments[i]? = some e) (h : MentionedAt x e place) :
    MentionedAt x (.call name arguments) (i :: place)

/-- The variable `x` is mentioned at a place in a statement: as a target, or in an expression. -/
inductive Statement.MentionedAt (x : String) : Statement → List Nat → Prop where
  | target {value : Expression} : MentionedAt x (.assign x value) [0]
  | value {name : String} {value : Expression} {place : List Nat}
    (h : value.MentionedAt x place) : MentionedAt x (.assign name value) (1 :: place)
  | read : MentionedAt x (.read x) []
  | block {body : List Statement} {s : Statement} {i : Nat} {place : List Nat}
    (hi : body[i]? = some s) (h : MentionedAt x s place) : MentionedAt x (.block body) (i :: place)
  | condition {condition : Expression} {onTrue onFalse : List Statement} {place : List Nat}
    (h : condition.MentionedAt x place) :
    MentionedAt x (.branch condition onTrue onFalse) (0 :: place)
  | onTrue {condition : Expression} {onTrue onFalse : List Statement} {s : Statement} {i : Nat}
    {place : List Nat} (hi : onTrue[i]? = some s) (h : MentionedAt x s place) :
    MentionedAt x (.branch condition onTrue onFalse) (1 :: i :: place)
  | onFalse {condition : Expression} {onTrue onFalse : List Statement} {s : Statement} {i : Nat}
    {place : List Nat} (hi : onFalse[i]? = some s) (h : MentionedAt x s place) :
    MentionedAt x (.branch condition onTrue onFalse) (2 :: i :: place)
  | test {condition : Expression} {body : List Statement} {place : List Nat}
    (h : condition.MentionedAt x place) : MentionedAt x (.loop condition body) (0 :: place)
  | body {condition : Expression} {body : List Statement} {s : Statement} {i : Nat}
    {place : List Nat} (hi : body[i]? = some s) (h : MentionedAt x s place) :
    MentionedAt x (.loop condition body) (1 :: i :: place)
  | display {value : Expression} {place : List Nat} (h : value.MentionedAt x place) :
    MentionedAt x (.display value) place
  | return {value : Expression} {place : List Nat} (h : value.MentionedAt x place) :
    MentionedAt x (.return value) place
  | procedure {name : String} {parameters : List String} {body : List Statement} {s : Statement}
    {i : Nat} {place : List Nat} (hi : body[i]? = some s) (h : MentionedAt x s place)
    (hname : x ≠ name) (hparameters : x ∉ parameters) :
    MentionedAt x (.procedure name parameters body) (i :: place)

/-- The variable `x` is mentioned at a place in a list of statements. -/
def MentionedAt (tree : List Statement) (x : String) (place : List Nat) : Prop :=
  ∃ i s rest, tree[i]? = some s ∧ place = i :: rest ∧ s.MentionedAt x rest

/-! ## Walks -/

/-- The names are what a walk meets that passes places of increasing order, where `At x place` says
that `x` is met at the place. -/
def Walk (At : String → List Nat → Prop) (names : List String) : Prop :=
  ∃ stops : List (List Nat × String), stops.map Prod.snd = names ∧
    stops.Pairwise (·.1 < ·.1) ∧ ∀ place x, (place, x) ∈ stops ↔ At x place

namespace Walk

variable {At At' : String → List Nat → Prop} {names names' : List String}

theorem congr (h : Walk At names) (hsame : ∀ x place, At x place ↔ At' x place) :
    Walk At' names := by
  obtain ⟨stops, hnames, hsorted, hmem⟩ := h
  exact ⟨stops, hnames, hsorted, fun place x => (hmem place x).trans (hsame x place)⟩

theorem nil (h : ∀ x place, ¬ At x place) : Walk At [] :=
  ⟨[], rfl, .nil, fun place x => by simpa using h x place⟩

theorem single (name : String) (place : List Nat) :
    Walk (fun x p => x = name ∧ p = place) [name] :=
  ⟨[(place, name)], rfl, List.pairwise_singleton _ _, by simp [and_comm]⟩

/-- A walk through a child. -/
theorem under (h : Walk At names) (i : Nat) :
    Walk (fun x place => ∃ rest, place = i :: rest ∧ At x rest) names := by
  obtain ⟨stops, rfl, hsorted, hmem⟩ := h
  refine ⟨stops.map fun stop => (i :: stop.1, stop.2), by simp, ?_, fun place x => ?_⟩
  · rw [List.pairwise_map]
    exact hsorted.imp fun h => List.Lex.cons h
  · simp only [List.mem_map, Prod.mk.injEq, Prod.exists, ← hmem]
    constructor
    · rintro ⟨rest, x, hstop, rfl, rfl⟩
      exact ⟨rest, rfl, hstop⟩
    · rintro ⟨rest, rfl, hstop⟩
      exact ⟨rest, x, hstop, rfl, rfl⟩

/-- One walk after another. -/
theorem append (h : Walk At names) (h' : Walk At' names')
    (hlt : ∀ x place x' place', At x place → At' x' place' → place < place') :
    Walk (fun x place => At x place ∨ At' x place) (names ++ names') := by
  obtain ⟨stops, rfl, hsorted, hmem⟩ := h
  obtain ⟨stops', rfl, hsorted', hmem'⟩ := h'
  refine ⟨stops ++ stops', by simp, ?_, fun place x => by simp [hmem, hmem']⟩
  refine List.pairwise_append.2 ⟨hsorted, hsorted', fun a ha b hb => ?_⟩
  exact hlt _ _ _ _ ((hmem _ _).1 ha) ((hmem' _ _).1 hb)

/-- A walk through one child and then through a later one. -/
theorem both {i j : Nat} (hij : i < j) (h : Walk At names) (h' : Walk At' names') :
    Walk (fun x place => (∃ rest, place = i :: rest ∧ At x rest) ∨
      ∃ rest, place = j :: rest ∧ At' x rest) (names ++ names') := by
  refine (h.under i).append (h'.under j) ?_
  rintro x _ x' _ ⟨rest, rfl, -⟩ ⟨rest', rfl, -⟩
  exact List.Lex.rel hij

/-- A walk that passes over some names. -/
theorem filter (h : Walk At names) (keep : String → Bool) :
    Walk (fun x place => At x place ∧ keep x) (names.filter keep) := by
  obtain ⟨stops, rfl, hsorted, hmem⟩ := h
  refine ⟨stops.filter fun stop => keep stop.2, ?_, hsorted.filter _, fun place x => ?_⟩
  · rw [List.filter_map]
    rfl
  · rw [List.mem_filter, hmem]

end Walk

/-- What is met in one of some children, which are numbered from `first` on. -/
def Among {α : Type} (At : α → String → List Nat → Prop) (children : List α) (first : Nat)
    (x : String) (place : List Nat) : Prop :=
  ∃ i child rest, children[i]? = some child ∧ place = (first + i) :: rest ∧ At child x rest

section Children

variable {α : Type} {At : α → String → List Nat → Prop} {children : List α} {child : α}
  {first : Nat} {x : String} {place : List Nat}

theorem not_among_nil : ¬ Among At [] first x place := by
  rintro ⟨i, child, rest, hi, -⟩
  cases hi

theorem among_cons : Among At (child :: children) first x place ↔
    (∃ rest, place = first :: rest ∧ At child x rest) ∨
      Among At children (first + 1) x place := by
  constructor
  · rintro ⟨i, c, rest, hi, rfl, h⟩
    cases i with
    | zero => cases hi; exact .inl ⟨rest, rfl, h⟩
    | succ i =>
      refine .inr ⟨i, c, rest, hi, ?_, h⟩
      rw [Nat.add_right_comm]
      rfl
  · rintro (⟨rest, rfl, h⟩ | ⟨i, c, rest, hi, rfl, h⟩)
    · exact ⟨0, child, rest, rfl, rfl, h⟩
    · refine ⟨i + 1, c, rest, hi, ?_, h⟩
      rw [Nat.add_right_comm]
      rfl

/-- Numbers from zero on are places in the list. -/
theorem among_zero : Among At children 0 x place ↔
    ∃ i child rest, children[i]? = some child ∧ place = i :: rest ∧ At child x rest := by
  simp [Among]

/-- A walk through the first child and then through the others. -/
theorem Walk.cons {names names' : List String} (h : Walk (At child) names)
    (h' : Walk (Among At children (first + 1)) names') :
    Walk (Among At (child :: children) first) (names ++ names') := by
  refine ((h.under first).append h' ?_).congr fun x place => among_cons.symm
  rintro x _ x' _ ⟨rest, rfl, -⟩ ⟨i, child, rest', -, rfl, -⟩
  exact List.Lex.rel (by omega)

end Children

/-! ## Mentions -/

variable {x : String} {place : List Nat}

namespace Expression

theorem mentionedAt_variable {name : String} :
    MentionedAt x (.variable name) place ↔ x = name ∧ place = [] := by
  constructor
  · rintro ⟨⟩
    exact ⟨rfl, rfl⟩
  · rintro ⟨rfl, rfl⟩
    exact .variable

theorem mentionedAt_binary {left right : Expression} {op : Operator} :
    MentionedAt x (.binary left op right) place ↔
      (∃ rest, place = 0 :: rest ∧ left.MentionedAt x rest) ∨
        ∃ rest, place = 1 :: rest ∧ right.MentionedAt x rest := by
  constructor
  · intro h
    cases h with
    | left h => exact .inl ⟨_, rfl, h⟩
    | right h => exact .inr ⟨_, rfl, h⟩
  · rintro (⟨rest, rfl, h⟩ | ⟨rest, rfl, h⟩)
    · exact .left h
    · exact .right h

theorem mentionedAt_call {name : String} {arguments : List Expression} :
    MentionedAt x (.call name arguments) place ↔
      Among (fun e x place => e.MentionedAt x place) arguments 0 x place := by
  rw [among_zero]
  constructor
  · intro h
    cases h with
    | argument hi h => exact ⟨_, _, _, hi, rfl, h⟩
  · rintro ⟨i, e, rest, hi, rfl, h⟩
    exact .argument hi h

mutual

theorem walk : (e : Expression) → Walk (fun x place => e.MentionedAt x place) e.variables
  | .number _ => .nil fun x place => by rintro ⟨⟩
  | .variable name => (Walk.single name []).congr fun x place => mentionedAt_variable.symm
  | .binary left op right =>
    (Walk.both Nat.zero_lt_one left.walk right.walk).congr fun x place => mentionedAt_binary.symm
  | .call _ arguments => (listWalk arguments 0).congr fun x place => mentionedAt_call.symm

theorem listWalk : (es : List Expression) → (first : Nat) →
    Walk (Among (fun e x place => e.MentionedAt x place) es first) (listVariables es)
  | [], _ => .nil fun _ _ => not_among_nil
  | e :: es, first => e.walk.cons (listWalk es (first + 1))

end

end Expression

namespace Statement

theorem mentionedAt_assign {name : String} {value : Expression} :
    MentionedAt x (.assign name value) place ↔
      (x = name ∧ place = [0]) ∨ ∃ rest, place = 1 :: rest ∧ value.MentionedAt x rest := by
  constructor
  · intro h
    cases h with
    | target => exact .inl ⟨rfl, rfl⟩
    | value h => exact .inr ⟨_, rfl, h⟩
  · rintro (⟨rfl, rfl⟩ | ⟨rest, rfl, h⟩)
    · exact .target
    · exact .value h

theorem mentionedAt_read {name : String} :
    MentionedAt x (.read name) place ↔ x = name ∧ place = [] := by
  constructor
  · rintro ⟨⟩
    exact ⟨rfl, rfl⟩
  · rintro ⟨rfl, rfl⟩
    exact .read

theorem mentionedAt_block {body : List Statement} : MentionedAt x (.block body) place ↔
    Among (fun s x place => s.MentionedAt x place) body 0 x place := by
  rw [among_zero]
  constructor
  · intro h
    cases h with
    | block hi h => exact ⟨_, _, _, hi, rfl, h⟩
  · rintro ⟨i, s, rest, hi, rfl, h⟩
    exact .block hi h

theorem mentionedAt_branch {condition : Expression} {onTrue onFalse : List Statement} :
    MentionedAt x (.branch condition onTrue onFalse) place ↔
      ((∃ rest, place = 0 :: rest ∧ condition.MentionedAt x rest) ∨
        ∃ rest, place = 1 :: rest ∧
          Among (fun s x place => s.MentionedAt x place) onTrue 0 x rest) ∨
        ∃ rest, place = 2 :: rest ∧
          Among (fun s x place => s.MentionedAt x place) onFalse 0 x rest := by
  simp only [among_zero]
  constructor
  · intro h
    cases h with
    | condition h => exact .inl (.inl ⟨_, rfl, h⟩)
    | onTrue hi h => exact .inl (.inr ⟨_, rfl, _, _, _, hi, rfl, h⟩)
    | onFalse hi h => exact .inr ⟨_, rfl, _, _, _, hi, rfl, h⟩
  · rintro ((⟨rest, rfl, h⟩ | ⟨_, rfl, i, s, rest, hi, rfl, h⟩) | ⟨_, rfl, i, s, rest, hi, rfl, h⟩)
    · exact .condition h
    · exact .onTrue hi h
    · exact .onFalse hi h

theorem mentionedAt_loop {condition : Expression} {body : List Statement} :
    MentionedAt x (.loop condition body) place ↔
      (∃ rest, place = 0 :: rest ∧ condition.MentionedAt x rest) ∨
        ∃ rest, place = 1 :: rest ∧
          Among (fun s x place => s.MentionedAt x place) body 0 x rest := by
  simp only [among_zero]
  constructor
  · intro h
    cases h with
    | test h => exact .inl ⟨_, rfl, h⟩
    | body hi h => exact .inr ⟨_, rfl, _, _, _, hi, rfl, h⟩
  · rintro (⟨rest, rfl, h⟩ | ⟨_, rfl, i, s, rest, hi, rfl, h⟩)
    · exact .test h
    · exact .body hi h

theorem mentionedAt_display {value : Expression} :
    MentionedAt x (.display value) place ↔ value.MentionedAt x place :=
  ⟨fun h => by cases h; assumption, .display⟩

theorem mentionedAt_return {value : Expression} :
    MentionedAt x (.return value) place ↔ value.MentionedAt x place :=
  ⟨fun h => by cases h; assumption, .return⟩

theorem mentionedAt_procedure {name : String} {parameters : List String}
    {body : List Statement} : MentionedAt x (.procedure name parameters body) place ↔
      Among (fun s x place => s.MentionedAt x place) body 0 x place ∧
        x ∉ name :: parameters := by
  rw [among_zero, List.mem_cons, not_or]
  constructor
  · intro h
    cases h with
    | procedure hi h hname hparameters => exact ⟨⟨_, _, _, hi, rfl, h⟩, hname, hparameters⟩
  · rintro ⟨⟨i, s, rest, hi, rfl, h⟩, hname, hparameters⟩
    exact .procedure hi h hname hparameters

mutual

theorem walk : (s : Statement) → Walk (fun x place => s.MentionedAt x place) s.variables
  | .assign name value => by
    refine ((Walk.single name [0]).append (value.walk.under 1) ?_).congr fun x place =>
      mentionedAt_assign.symm
    rintro x _ x' _ ⟨-, rfl⟩ ⟨rest', rfl, -⟩
    exact List.Lex.rel (by omega)
  | .read name => (Walk.single name []).congr fun x place => mentionedAt_read.symm
  | .block body => (listWalk body 0).congr fun x place => mentionedAt_block.symm
  | .branch condition onTrue onFalse => by
    refine ((Walk.both Nat.zero_lt_one condition.walk (listWalk onTrue 0)).append
      ((listWalk onFalse 0).under 2) ?_).congr fun x place => mentionedAt_branch.symm
    rintro x _ x' _ (⟨rest, rfl, -⟩ | ⟨rest, rfl, -⟩) ⟨rest', rfl, -⟩ <;>
      exact List.Lex.rel (by omega)
  | .loop condition body =>
    (Walk.both Nat.zero_lt_one condition.walk (listWalk body 0)).congr fun x place =>
      mentionedAt_loop.symm
  | .display value => value.walk.congr fun x place => mentionedAt_display.symm
  | .return value => value.walk.congr fun x place => mentionedAt_return.symm
  | .procedure name parameters body =>
    ((listWalk body 0).filter _).congr fun x place => by
      rw [mentionedAt_procedure]
      simp

theorem listWalk : (ss : List Statement) → (first : Nat) →
    Walk (Among (fun s x place => s.MentionedAt x place) ss first) (listVariables ss)
  | [], _ => .nil fun _ _ => not_among_nil
  | s :: ss, first => s.walk.cons (listWalk ss (first + 1))

end

end Statement

theorem walk_tree (tree : List Statement) :
    Walk (MentionedAt tree) (Statement.listVariables tree) :=
  (Statement.listWalk tree 0).congr fun _ _ => among_zero

/-! ## First mentions -/

/-- The names are those that are met anywhere, without repetitions, in the order of the first places
where they are met: of two of them, the one in front is met before all places of the other one. -/
structure FirstMentions (At : String → List Nat → Prop) (names : List String) : Prop where
  nodup : names.Nodup
  mem_iff : ∀ x, x ∈ names ↔ ∃ place, At x place
  ordered : names.Pairwise fun x y => ∃ place, At x place ∧ ∀ later, At y later → place < later

namespace FirstMentions

variable {At At' : String → List Nat → Prop} {names : List String}

theorem congr (h : FirstMentions At names) (hsame : ∀ x place, At x place ↔ At' x place) :
    FirstMentions At' names := by
  obtain rfl : At = At' := by
    funext x place
    exact propext (hsame x place)
  exact h

/-- One place more, behind all others. -/
theorem concat (h : FirstMentions At names) {name : String} {last : List Nat}
    (hlast : ∀ x place, At x place → place < last) :
    FirstMentions (fun x place => At x place ∨ x = name ∧ place = last)
      (names ++ if name ∈ names then [] else [name]) where
  nodup := by
    split
    next => simpa using h.nodup
    next hnew => simpa using h.nodup.concat hnew
  mem_iff x := by
    have hx := h.mem_iff x
    by_cases hmem : name ∈ names
    · rw [if_pos hmem, List.append_nil, hx]
      refine ⟨fun ⟨place, hp⟩ => ⟨place, .inl hp⟩, ?_⟩
      rintro ⟨place, hp | ⟨rfl, -⟩⟩
      · exact ⟨place, hp⟩
      · exact hx.1 hmem
    · rw [if_neg hmem, List.mem_append, hx, List.mem_singleton]
      constructor
      · rintro (⟨place, hp⟩ | rfl)
        · exact ⟨place, .inl hp⟩
        · exact ⟨last, .inr ⟨rfl, rfl⟩⟩
      · rintro ⟨place, hp | ⟨rfl, -⟩⟩
        · exact .inl ⟨place, hp⟩
        · exact .inr rfl
  ordered := by
    have hordered : names.Pairwise fun x y => ∃ place, (At x place ∨ x = name ∧ place = last) ∧
        ∀ later, At y later ∨ y = name ∧ later = last → place < later := by
      refine h.ordered.imp fun {x y} ⟨place, hp, hbefore⟩ => ⟨place, .inl hp, ?_⟩
      rintro later (hl | ⟨-, rfl⟩)
      · exact hbefore later hl
      · exact hlast x place hp
    by_cases hmem : name ∈ names
    · rwa [if_pos hmem, List.append_nil]
    · rw [if_neg hmem]
      refine List.pairwise_append.2 ⟨hordered, List.pairwise_singleton _ _, fun x hx y hy => ?_⟩
      obtain rfl := List.mem_singleton.1 hy
      obtain ⟨place, hp⟩ := (h.mem_iff x).1 hx
      refine ⟨place, .inl hp, ?_⟩
      -- The name is new, so the only place where it is met is the last one.
      rintro later (hl | ⟨-, rfl⟩)
      · exact absurd ((h.mem_iff y).2 ⟨later, hl⟩) hmem
      · exact hlast x place hp

end FirstMentions

/-- Noting each name that a walk meets, unless it was noted before, gives the first mentions. -/
theorem Walk.firstMentions {At : String → List Nat → Prop} {names : List String}
    (h : Walk At names) :
    FirstMentions At (names.foldl Environment.declareVariable {}).declared := by
  obtain ⟨stops, rfl, hsorted, hmem⟩ := h
  induction stops using List.reverseRecOn generalizing At with
  | nil => exact ⟨List.nodup_nil, fun x => by simp [← hmem], .nil⟩
  | append_singleton stops stop ih =>
    obtain ⟨last, name⟩ := stop
    obtain ⟨hbefore, -, hlt⟩ := List.pairwise_append.1 hsorted
    have hfirst : FirstMentions (fun x place => (place, x) ∈ stops ∨ x = name ∧ place = last) _ :=
      (ih hbefore fun _ _ => Iff.rfl).concat fun x place hp =>
        hlt _ hp _ (List.mem_singleton_self (last, name))
    rw [List.map_append, List.foldl_append]
    show FirstMentions At (Environment.declareVariable _ name).declared
    rw [Environment.declared_declareVariable]
    refine hfirst.congr fun x place => ?_
    rw [← hmem, List.mem_append, List.mem_singleton, Prod.mk.injEq, and_comm (a := place = last)]

/-! ## What a program starts with -/

/-- The environment is what a program of this tree starts with. Its procedures are those that the
tree declares, in order, all with different names, and they are what is found by name; no variable
has a value; no call is under way; and the variables noted as declared are those that the tree
mentions, in the order of their first mentions. -/
structure Environment.Seeds (env : Environment) (tree : List Statement) : Prop where
  procedures : env.procedures = tree.filterMap Statement.procedure?
  names : (env.procedures.map Procedure.name).Nodup
  found : ∀ name p, env.getProcedure name = .ok p ↔ p.marker ∈ tree ∧ p.name = name
  missing : ∀ name, (∀ p : Procedure, p.marker ∈ tree → p.name ≠ name) →
    env.getProcedure name = .error (.undefinedProcedure name)
  unbound : ∀ x, env.get? x = none
  depth : env.depth = 1
  declared : FirstMentions (MentionedAt tree) env.declared

theorem mem_procedures {tree : List Statement} {p : Procedure} :
    p ∈ tree.filterMap Statement.procedure? ↔ p.marker ∈ tree := by
  rw [List.mem_filterMap]
  constructor
  · rintro ⟨s, hs, h⟩
    exact Statement.eq_marker h ▸ hs
  · exact fun h => ⟨_, h, p.procedure?_marker⟩

/-- The environment of a source text agrees with its tree. -/
theorem parse_seeds {source : String} {p : Program} (h : Program.parse source = .ok p) :
    p.environment.Seeds p.tree := by
  have hnames := Program.procedures_nodup h
  have henv := (Program.parse_eq_ok h).2
  rw [Environment.ofTree_eq] at henv
  have hfound (name : String) (q : Procedure) : p.environment.getProcedure name = .ok q ↔
      q.marker ∈ p.tree ∧ q.name = name := by
    rw [Environment.getProcedure_eq_ok_iff hnames, henv, mem_procedures]
  refine ⟨by rw [henv], hnames, hfound, fun name hnone => ?_, fun x => by rw [henv]; rfl,
    by rw [henv]; rfl, ?_⟩
  · cases hget : p.environment.getProcedure name with
    | ok q =>
      obtain ⟨hq, hname⟩ := (hfound name q).1 hget
      exact absurd hname (hnone q hq)
    | error e => rw [Environment.getProcedure_eq_error hget]
  · rw [henv]
    exact (walk_tree p.tree).firstMentions

/-- A text in which the first mention of a variable is behind the name of a call and in a procedure
that has names of its own. -/
theorem parse_seeds_text :
    ∃ p, Program.parse "procedure f(a) assign f = a + b end assign a = f(b - c)" = .ok p ∧
      p.environment.Seeds p.tree ∧ p.environment.declared = ["b", "a", "c"] := by
  have h : Program.parse "procedure f(a) assign f = a + b end assign a = f(b - c)" =
      .ok ⟨[.procedure "f" ["a"]
          [.assign "f" (.binary (.variable "a") .add (.variable "b"))],
          .assign "a" (.call "f" [.binary (.variable "b") .subtract (.variable "c")])],
        { procedures :=
            [⟨"f", ["a"], [.assign "f" (.binary (.variable "a") .add (.variable "b"))]⟩]
          declared := ["b", "a", "c"] }⟩ := by
    decide +kernel
  exact ⟨_, h, parse_seeds h, rfl⟩

end Blockwork
