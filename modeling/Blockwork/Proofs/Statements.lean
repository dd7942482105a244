import Blockwork.Proofs.Expressions

/-!
# Machines follow statements

A machine at the code of a statement comes to its end. The stack from `$sp` on is what it was but
for the words of the innermost call's variables.

* `StatementsReach`: the statement for runs that go down some number of levels; the one for lists is
  `ListsReach`.
* `reaches_condition`: the test of a condition, which goes to one of two places.
* `reaches_branch_nil`, `reaches_branch_cons`, `reaches_loop`: one level more.
* `reaches_all`: machines follow all runs of expressions and statements, by induction on the number
  of levels.
-/

namespace Blockwork

open Code Environment Traced

variable {p : Program} {lines : List Line} {fuel : Nat}

/-- Machines follow the runs of statements that go down some number of levels. -/
def StatementsReach (p : Program) (lines : List Line) (fuel : Nat) : Prop :=
  ∀ (st : Statement) (s : State) (m : Machine) (first : Nat),
    let code := st.code ⟨p.environment, s.environment.layout p⟩ first
    Matches p s.environment m → CodeAt lines m.line code →
    (∀ x ∈ st.assigned, s.environment.Assignable p x) →
    Reaches p lines m (st.trace fuel s) fun _ =>
      Performed (s.environment.layout p) m code.lines.length

/-! ## One part after another -/

theorem Owned.congr {layout : Layout} {m m' : Machine} {a : Int} (h : Owned layout m' a)
    (hf : m'.get .fp = m.get .fp) : Owned layout m a := by
  obtain ⟨q, locals, f, x, o, hl, hfp, ho, rfl⟩ := h
  exact ⟨q, locals, f, x, o, hl, hf ▸ hfp, ho, rfl⟩

theorem Keeps.owned {layout : Layout} {m m' m'' : Machine} (h : Keeps (Owned layout m') m' m'')
    (hf : m'.get .fp = m.get .fp) : Keeps (Owned layout m) m' m'' :=
  h.mono fun _ ho => ho.congr hf

/-- The code of an expression in front. -/
theorem Performed.after {layout : Layout} {m m' m'' : Machine} {n n' : Nat}
    (hl : m'.line = m.line + n) (hk : Keeps (Owned layout m) m m')
    (h : Performed layout m' n' m'') : Performed layout m (n + n') m'' :=
  ⟨by rw [h.1, hl, Nat.add_assoc], hk.trans (h.2.owned hk.fp)⟩

theorem Keeps.toOwned {layout : Layout} {m m' : Machine} (h : Keeps (fun _ => False) m m') :
    Keeps (Owned layout m) m m' :=
  h.mono fun _ => False.elim

/-! ## Single steps -/

/-- A machine follows a write. -/
theorem reaches_assign {x : String} {v : Value} {s : State} {m : Machine}
    (h : Matches p s.environment m) (hv : m.get .v0 = v.content)
    (hx : s.environment.Assignable p x) (hc : CodeAt lines m.line
      (ofInstructions [.store .v0 ((s.environment.layout p).locate x)])) :
    Reaches p lines m (Traced.assign x v s) fun _ => Performed (s.environment.layout p) m 1 := by
  intro hproper
  obtain ⟨m', hw, hm, hstored⟩ := h.store hx (hproper _ (List.mem_singleton.2 rfl))
  refine ⟨fun _ _ => ?_, fun he => (by cases he)⟩
  have he : m.effects lines [.store .v0 ((s.environment.layout p).locate x)] = some m' := by
    simp [Machine.effects, Machine.effect, hv, hw]
  have hrun := Machine.runs_effects hc h.running he
  refine ⟨_, hrun, ?_, hm.registers rfl rfl rfl rfl rfl, rfl, hstored.registers _,
    hstored.registers _, fun _ a _ _ ha => hstored.stack a ha⟩
  rw [Machine.goto_output, hstored.output]
  exact String.append_empty.symm

/-- What the code of `display` does. -/
theorem Machine.runs_print (hlink : Linked p lines) {m : Machine} {v : Value}
    (hr : m.exitCode = none) (hv : m.get .v0 = v.content)
    (hc : CodeAt lines m.line Blockwork.print) :
    m.Runs lines (((((((m.set .a0 v.content).set .v0 (.word 1)).print
      (.ofList (decimal v.asWord.toInt))).set .a0 (.data .newline)).set .v0 (.word 4)).print
      "\n").goto (m.line + 6)) := by
  refine runs_effects hc hr ?_
  simp [effects, effect, printCall, hv, Value.content, hlink.newline]

theorem reaches_display (hlink : Linked p lines) {v : Value} {s : State} {m : Machine}
    (h : Matches p s.environment m) (hv : m.get .v0 = v.content)
    (hc : CodeAt lines m.line Blockwork.print) :
    Reaches p lines m (Traced.display v s) fun _ => Performed (s.environment.layout p) m 6 := by
  have henv : (Traced.display v s).state.environment = s.environment := by
    simp only [Traced.display, record, Execution.display, Execution.ofExcept]
    split <;> rfl
  have hio : (Traced.display v s).outcome ≠ .failed .divisionByZero := by
    simp only [Traced.display, record, Execution.display, Console.display]
    split
    · simp [Execution.ofExcept]
    · cases Sink.flush _ <;> simp [Execution.ofExcept, Except.mapError]
  intro _
  refine ⟨fun _ _ => ?_, fun he => absurd he hio⟩
  rw [henv]
  refine ⟨_, Machine.runs_print hlink h.running hv hc, ?_, ?_, rfl, .of_eq ?_ ?_ rfl⟩
  · simp [Traced.display, record, printed, Event.printed, String.append_assoc]
  · exact h.registers rfl rfl (by simp) (by simp) rfl
  · simp
  · simp

/-! ## Conditions -/

/-- A machine follows a condition, and goes on behind the test or at the label. -/
theorem reaches_condition (ihe : ExpressionsReach p lines fuel) {condition : Expression}
    {target n : Nat} {s : State} {m : Machine} (h : Matches p s.environment m)
    (hc : CodeAt lines m.line
      (branchUnless ⟨p.environment, s.environment.layout p⟩ condition target))
    (hl : labelLine? lines (.local target) = some n) :
    Reaches p lines m (condition.trace fuel s) fun v m' =>
      Keeps (fun _ => False) m m' ∧ m'.line = if v.isTruthy then m.line +
        (branchUnless ⟨p.environment, s.environment.layout p⟩ condition target).lines.length
      else n := by
  simp only [branchUnless] at hc ⊢
  rw [hc.length_append]
  refine .followed (ihe condition s m h hc.left) ?_
  rintro v m₁ hm₁ ⟨hl₁, hv₁, hk₁⟩
  have htest := hc.right
  rw [← hl₁] at htest
  have hload : CodeAt lines m₁.line (ofInstructions [.loadImmediate .t0 1]) :=
    CodeAt.left (b := ofInstructions [.branchNotEqual .v0 .t0 (.local target)]) htest
  have hset : m₁.Runs lines ((m₁.set .t0 (.word 1)).goto (m₁.line + 1)) :=
    Machine.runs_effects hload hm₁.running (by simp [Machine.effects, Machine.effect])
  have hbranch := Machine.runs_branchNotEqual (m := (m₁.set .t0 (.word 1)).goto (m₁.line + 1))
    htest.tail hm₁.running (a := v.asWord.toBitVec) (b := 1) (by simpa [Value.content] using hv₁)
    (by simp) hl
  refine ⟨_, hset.trans hbranch, rfl, hm₁.registers rfl rfl (by simp) (by simp) rfl,
    hk₁.trans (.of_eq (by simp) (by simp) rfl), ?_⟩
  have htruthy : v.isTruthy = decide (v.asWord.toBitVec = 1) := by
    rw [Value.isTruthy_eq]
    exact decide_eq_decide.2 Int32.toBitVec_inj.symm
  simp only [htruthy, decide_eq_true_eq, Machine.goto_line, hl₁, lines_ofInstructions,
    List.length_map, List.length_cons, List.length_nil]
  rfl

/-- A local label that a piece of code defines. -/
theorem Linked.local (hlink : Linked p lines) {n k : Nat} (hc : CodeAt lines k (define n)) :
    labelLine? lines (.local n) = some k :=
  labelLine?_of_nodup hlink.labels hc.define

theorem Matches.goto {env : Environment} {m : Machine} {n : Nat} (h : Matches p env m) :
    Matches p env (m.goto n) :=
  h.registers rfl rfl rfl rfl rfl

theorem Keeps.goto {own : Int → Prop} {m m' : Machine} {n : Nat} (h : Keeps own m m') :
    Keeps own m (m'.goto n) :=
  h.trans (.of_eq rfl rfl rfl)

/-- A list of statements after a part that leaves the variables of the innermost call where they
are. -/
theorem reaches_part (ihss : ListsReach p lines fuel) {ss : List Statement} {s t : State}
    {m m₁ : Machine} {first : Nat} (he : s.environment.Executed t.environment)
    (h : Matches p t.environment m₁) (hk : Keeps (Owned (s.environment.layout p) m) m m₁)
    (hc : CodeAt lines m₁.line
      (Statement.listCode ⟨p.environment, s.environment.layout p⟩ first ss))
    (hx : ∀ x ∈ Statement.listAssigned ss, s.environment.Assignable p x) :
    Reaches p lines m₁ (Statement.traceAll fuel ss t) fun _ m' =>
      m'.line = m₁.line +
        (Statement.listCode ⟨p.environment, s.environment.layout p⟩ first ss).lines.length ∧
      Keeps (Owned (s.environment.layout p) m) m m' := by
  have hl : t.environment.layout p = s.environment.layout p := he.layout
  refine .mono (ihss ss t m₁ first h (by rw [hl]; exact hc) fun x hxs => ?_) ?_
  · rw [he.assignable]
    exact hx x hxs
  · rintro _ m' ⟨hl', hk'⟩
    rw [hl] at hl' hk'
    exact ⟨hl', hk.trans (hk'.owned hk.fp)⟩

/-- A branch without statements for the other case. -/
theorem reaches_branch_nil (hlink : Linked p lines) (ihe : ExpressionsReach p lines fuel)
    (ihss : ListsReach p lines fuel) {condition : Expression} {onTrue : List Statement} {s : State}
    {m : Machine} {first : Nat} (h : Matches p s.environment m)
    (hc : CodeAt lines m.line ((Statement.branch condition onTrue []).code
      ⟨p.environment, s.environment.layout p⟩ first))
    (hx : ∀ x ∈ Statement.listAssigned onTrue, s.environment.Assignable p x) :
    Reaches p lines m ((Statement.branch condition onTrue []).trace (fuel + 1) s) fun _ =>
      Performed (s.environment.layout p) m ((Statement.branch condition onTrue []).code
        ⟨p.environment, s.environment.layout p⟩ first).lines.length := by
  simp only [Statement.code, append_assoc, lines_mint_append, List.isEmpty_nil, if_true] at hc ⊢
  replace hc := hc.mint
  have hthen := hc.right
  have hend := hthen.right
  rw [hc.length_append, hthen.length_append, Statement.trace]
  refine .bind (reaches_condition ihe h hc.left (hlink.local hend)) ?_
  rintro v t _ m₁ ht hm₁ ⟨hk₁, hl₁⟩
  have het := (Expression.evaluated_of_trace ht).executed
  cases hv : v.isTruthy
  · rw [hv, if_neg Bool.false_ne_true] at hl₁
    rw [if_neg Bool.false_ne_true]
    rw [← hl₁] at hend
    have hnone : CodeAt lines (m₁.goto (m₁.line + 1)).line
        (Statement.listCode ⟨p.environment, s.environment.layout p⟩ first []) := .none _ _
    refine .steps (Machine.runs_define hend hm₁.running) rfl (.mono (reaches_part ihss het
      hm₁.goto hk₁.toOwned.goto hnone (by simp [Statement.listAssigned])) ?_)
    rintro _ m₂ ⟨hl₂, hk₂⟩
    refine ⟨?_, hk₂⟩
    rw [hl₂, Machine.goto_line, hl₁]
    simp only [Nat.add_assoc]
    rfl
  · rw [hv, if_pos rfl] at hl₁
    rw [if_pos rfl]
    rw [← hl₁] at hthen hend
    refine .followed (reaches_part ihss het hm₁ hk₁.toOwned hthen.left hx) ?_
    rintro _ m₂ hm₂ ⟨hl₂, hk₂⟩
    rw [← hl₂] at hend
    refine ⟨_, Machine.runs_define hend hm₂.running, rfl, hm₂.goto, ?_, hk₂.goto⟩
    rw [Machine.goto_line, hl₂, hl₁, Nat.add_assoc, Nat.add_assoc]
    rfl

/-- A branch with statements for both cases. -/
theorem reaches_branch_cons (hlink : Linked p lines) (ihe : ExpressionsReach p lines fuel)
    (ihss : ListsReach p lines fuel) {condition : Expression} {onTrue : List Statement}
    {st : Statement} {ss : List Statement} {s : State} {m : Machine} {first : Nat}
    (h : Matches p s.environment m)
    (hc : CodeAt lines m.line ((Statement.branch condition onTrue (st :: ss)).code
      ⟨p.environment, s.environment.layout p⟩ first))
    (hx : ∀ x ∈ Statement.listAssigned onTrue, s.environment.Assignable p x)
    (hx' : ∀ x ∈ Statement.listAssigned (st :: ss), s.environment.Assignable p x) :
    Reaches p lines m ((Statement.branch condition onTrue (st :: ss)).trace (fuel + 1) s) fun _ =>
      Performed (s.environment.layout p) m ((Statement.branch condition onTrue (st :: ss)).code
        ⟨p.environment, s.environment.layout p⟩ first).lines.length := by
  simp only [Statement.code, append_assoc, lines_mint_append, List.isEmpty_cons,
    Bool.false_eq_true, if_false] at hc ⊢
  replace hc := hc.mint
  have hthen := hc.right
  have hjump := hthen.right.mint
  have hdefine := hjump.right
  have helse := hdefine.right
  have hend := helse.right
  rw [hc.length_append, hthen.length_append, lines_mint_append, hjump.length_append,
    hdefine.length_append, helse.length_append, Statement.trace]
  refine .bind (reaches_condition ihe h hc.left (hlink.local hdefine.left)) ?_
  rintro v t _ m₁ ht hm₁ ⟨hk₁, hl₁⟩
  have het := (Expression.evaluated_of_trace ht).executed
  cases hv : v.isTruthy
  · rw [hv, if_neg Bool.false_ne_true] at hl₁
    rw [if_neg Bool.false_ne_true]
    rw [← hl₁] at hdefine helse hend
    refine .steps (Machine.runs_define hdefine.left hm₁.running) rfl (.followed (reaches_part ihss
      het hm₁.goto hk₁.toOwned.goto helse.left hx') ?_)
    rintro _ m₂ hm₂ ⟨hl₂, hk₂⟩
    change m₂.line = m₁.line + (define first).lines.length + _ at hl₂
    rw [← hl₂] at hend
    refine ⟨_, Machine.runs_define hend hm₂.running, rfl, hm₂.goto, ?_, hk₂.goto⟩
    rw [Machine.goto_line, hl₂, hl₁]
    simp only [Nat.add_assoc]
    rfl
  · rw [hv, if_pos rfl] at hl₁
    rw [if_pos rfl]
    rw [← hl₁] at hthen hjump
    refine .followed (reaches_part ihss het hm₁ hk₁.toOwned hthen.left hx) ?_
    rintro _ m₂ hm₂ ⟨hl₂, hk₂⟩
    rw [← hl₂] at hjump
    -- The jump goes over the statements for the other case.
    have hrun := Machine.runs_jump hjump.left hm₂.running (hlink.local hend)
    refine ⟨_, hrun.trans (Machine.runs_define hend hm₂.running), rfl, hm₂.goto.goto, ?_,
      hk₂.goto.goto⟩
    simp only [Machine.goto_line, Nat.add_assoc]
    rfl

theorem reaches_loop (hlink : Linked p lines) (ihe : ExpressionsReach p lines fuel)
    (ihs : StatementsReach p lines fuel) (ihss : ListsReach p lines fuel)
    {condition : Expression} {body : List Statement} {s : State} {m : Machine} {first : Nat}
    (h : Matches p s.environment m) (hc : CodeAt lines m.line
      ((Statement.loop condition body).code ⟨p.environment, s.environment.layout p⟩ first))
    (hx : ∀ x ∈ Statement.listAssigned body, s.environment.Assignable p x) :
    Reaches p lines m ((Statement.loop condition body).trace (fuel + 1) s) fun _ =>
      Performed (s.environment.layout p) m ((Statement.loop condition body).code
        ⟨p.environment, s.environment.layout p⟩ first).lines.length := by
  have hloop := hc
  simp only [Statement.code, append_assoc, lines_mint_append] at hc ⊢
  replace hc := hc.mint.mint
  have hcondition := hc.right
  have hbody := hcondition.right
  have hjump := hbody.right
  have hend := hjump.right
  rw [hc.length_append, hcondition.length_append, hbody.length_append, hjump.length_append]
  rw [Statement.trace]
  refine .steps (Machine.runs_define hc.left h.running) rfl (.bind (reaches_condition ihe h.goto
    hcondition.left (hlink.local hend)) ?_)
  rintro v t _ m₁ ht hm₁ ⟨hk₁, hl₁⟩
  have het := (Expression.evaluated_of_trace ht).executed
  replace hk₁ : Keeps (fun _ => False) m m₁ := (Keeps.refl _ m).goto.trans hk₁
  cases hv : v.isTruthy
  · rw [hv, if_neg Bool.false_ne_true] at hl₁
    rw [if_neg Bool.false_ne_true]
    rw [← hl₁] at hend
    refine .of_pure (Machine.runs_define hend hm₁.running) rfl hm₁.goto ⟨?_, hk₁.toOwned.goto⟩
    rw [Machine.goto_line, hl₁]
    simp only [Nat.add_assoc]
    rfl
  · rw [hv, if_pos rfl] at hl₁
    rw [if_pos rfl]
    change m₁.line = m.line + (define first).lines.length + _ at hl₁
    rw [← hl₁] at hbody hjump
    refine .bind (reaches_part ihss het hm₁ hk₁.toOwned hbody.left hx) ?_
    rintro _ u _ m₂ hu hm₂ ⟨hl₂, hk₂⟩
    have heu := het.trans (Statement.executed_of_traceAll hu)
    have hlu : u.environment.layout p = s.environment.layout p := heu.layout
    rw [← hl₂] at hjump
    -- Back at the first line, the rest is the run of the loop that goes down one level less.
    refine .steps (Machine.runs_jump hjump.left hm₂.running (hlink.local hc.left)) rfl ?_
    refine .mono (ihs (.loop condition body) u (m₂.goto m.line) first hm₂.goto
      (by rw [hlu]; exact hloop) fun x hxb => ?_) ?_
    · rw [heu.assignable]
      exact hx x hxb
    · rintro _ m' ⟨hl', hk'⟩
      rw [hlu] at hl' hk'
      simp only [Statement.code, append_assoc, lines_mint_append] at hl'
      rw [hc.length_append, hcondition.length_append, hbody.length_append,
        hjump.length_append] at hl'
      exact ⟨hl', hk₂.goto.trans (hk'.owned hk₂.fp)⟩

/-! ## All runs -/

theorem reaches_statements (hlink : Linked p lines) (ihe : ExpressionsReach p lines fuel)
    (ihs : StatementsReach p lines fuel) (ihss : ListsReach p lines fuel) :
    StatementsReach p lines (fuel + 1) := by
  intro st s m first code h hc hx
  cases st with
  | assign name value =>
    have hstore := hc.right
    simp only [code, Statement.code]
    rw [hc.length_append, Statement.trace]
    refine .bind (ihe value s m h hc.left) ?_
    rintro v t _ m₁ ht hm₁ ⟨hl₁, hv₁, hk₁⟩
    have het := (Expression.evaluated_of_trace ht).executed
    have hlt : t.environment.layout p = s.environment.layout p := het.layout
    rw [← hl₁] at hstore
    refine .mono (reaches_assign hm₁ hv₁ ?_ (by rw [hlt]; exact hstore)) fun _ m' hm' => ?_
    · rw [het.assignable]
      exact hx name (List.mem_singleton.2 rfl)
    · rw [hlt] at hm'
      exact hm'.after hl₁ hk₁.toOwned
  | block body =>
    rw [Statement.trace]
    exact ihss body s m first h hc hx
  | branch condition onTrue onFalse =>
    have htrue : ∀ x ∈ Statement.listAssigned onTrue, s.environment.Assignable p x :=
      fun x h => hx x (List.mem_append_left _ h)
    cases onFalse with
    | nil => exact reaches_branch_nil hlink ihe ihss h hc htrue
    | cons st ss =>
      exact reaches_branch_cons hlink ihe ihss h hc htrue
        fun x h => hx x (List.mem_append_right _ h)
  | loop condition body => exact reaches_loop hlink ihe ihs ihss h hc hx
  | read name => exact absurd hc.obstacle (by simp [code, Statement.code, blocked])
  | display value =>
    have hprint := hc.right
    simp only [code, Statement.code]
    rw [hc.length_append, Statement.trace]
    refine .bind (ihe value s m h hc.left) ?_
    rintro v t _ m₁ ht hm₁ ⟨hl₁, hv₁, hk₁⟩
    have hlt : t.environment.layout p = s.environment.layout p := Expression.layout_of_trace ht
    rw [← hl₁] at hprint
    refine .mono (reaches_display hlink hm₁ hv₁ hprint) fun _ m' hm' => ?_
    rw [hlt] at hm'
    exact hm'.after hl₁ hk₁.toOwned
  | «return» value =>
    rw [Statement.trace]
    refine .bind (ihe value s m h hc) ?_
    rintro v t _ m₁ - hm₁ ⟨hl₁, -, hk₁⟩
    exact .of_pure .refl rfl hm₁ ⟨hl₁, hk₁.toOwned⟩
  | procedure name parameters body =>
    rw [Statement.trace]
    exact .of_pure .refl rfl h ⟨rfl, .refl _ _⟩

theorem reaches_lists (ihs : StatementsReach p lines fuel) (ihss : ListsReach p lines fuel) :
    ListsReach p lines (fuel + 1) := by
  intro ss s m first code h hc hx
  cases ss with
  | nil =>
    rw [Statement.traceAll]
    exact .of_pure .refl rfl h ⟨rfl, .refl _ _⟩
  | cons st ss =>
    have hrest := hc.right
    simp only [Statement.listAssigned, List.mem_append] at hx
    simp only [code, Statement.listCode]
    rw [hc.length_append, Statement.traceAll]
    refine .bind (ihs st s m first h hc.left fun x h => hx x (.inl h)) ?_
    rintro _ t _ m₁ ht hm₁ ⟨hl₁, hk₁⟩
    rw [← hl₁] at hrest
    refine .mono (reaches_part ihss (Statement.executed_of_trace ht) hm₁ hk₁ hrest
      fun x h => hx x (.inr h)) ?_
    rintro _ m' ⟨hl', hk'⟩
    exact ⟨by rw [hl', hl₁, Nat.add_assoc], hk'⟩

/-- A part of a run that goes too far down. -/
theorem Reaches.exhausted {α : Type} {s : State} {m : Machine} {post : α → Machine → Prop} :
    Reaches p lines m ((Traced.exhausted : Traced α) s) post :=
  fun _ => ⟨fun _ h => (by cases h), fun h => (by cases h)⟩

/-- Machines follow all runs of the parts of a program. -/
theorem reaches_all (hlink : Linked p lines) (fuel : Nat) :
    ExpressionsReach p lines fuel ∧ ArgumentsReach p lines fuel ∧
      StatementsReach p lines fuel ∧ ListsReach p lines fuel := by
  induction fuel with
  | zero =>
    refine ⟨fun e s m _ _ => ?_, fun es s m a _ _ _ => ?_, fun st s m first _ _ _ => ?_,
      fun ss s m first _ _ _ => ?_⟩
    · rw [Expression.trace]; exact .exhausted
    · rw [Expression.traceAll]; exact .exhausted
    · rw [Statement.trace]; exact .exhausted
    · rw [Statement.traceAll]; exact .exhausted
  | succ fuel ih =>
    obtain ⟨ihe, ihes, ihs, ihss⟩ := ih
    exact ⟨reaches_expressions hlink ihe ihes ihss, reaches_arguments ihe ihes,
      reaches_statements hlink ihe ihs ihss, reaches_lists ihs ihss⟩

end Blockwork
