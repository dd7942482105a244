import Blockwork.Proofs.Statements

/-!
# Compiled code does what the program does

The lines that an emitter writes for a program, run from `main`, print the words of the values that
the program displays, in order, and leave the words of its global variables in the data section. If
the program ends with a division by zero, the code prints a message and exits with one.

* `Program.matches_start`: a machine at the start matches the environment at the start.
* `runs_end`, `runs_guard`: what comes behind the main program, and the division guard.
* `compiled_code_follows_run`: the whole, for each source text that has code and each run of it
  that creates no local variable whose name the main program assigns to.
-/

namespace Blockwork

open Code Environment Machine

variable {p : Program} {lines : List Line} {m : Machine}

/-! ## The start -/

mutual

theorem Statement.assigned_subset_referenced :
    (s : Statement) → ∀ x ∈ s.assigned, x ∈ s.referenced
  | .assign .., x, hx | .read _, x, hx => by
    obtain rfl := List.mem_singleton.1 hx
    exact List.mem_cons_self
  | .block body, x, hx => Statement.listAssigned_subset_referenced body x hx
  | .branch _ onTrue onFalse, x, hx => by
    simp only [Statement.referenced, List.mem_append]
    rcases List.mem_append.1 hx with hx | hx
    · exact .inl (.inr (Statement.listAssigned_subset_referenced onTrue x hx))
    · exact .inr (Statement.listAssigned_subset_referenced onFalse x hx)
  | .loop _ body, x, hx =>
    List.mem_append_right _ (Statement.listAssigned_subset_referenced body x hx)
  | .display _, x, hx | .return _, x, hx | .procedure .., x, hx => nomatch hx

theorem Statement.listAssigned_subset_referenced :
    (ss : List Statement) → ∀ x ∈ Statement.listAssigned ss, x ∈ Statement.listReferenced ss
  | [], x, hx => nomatch hx
  | s :: ss, x, hx => by
    simp only [Statement.listReferenced, List.mem_append]
    rcases List.mem_append.1 hx with hx | hx
    · exact .inl (s.assigned_subset_referenced x hx)
    · exact .inr (Statement.listAssigned_subset_referenced ss x hx)

end

/-- There is a word in the data section for each name that the main program assigns to. -/
theorem Program.topLevelNames_subset_globalNames {x : String} (hx : x ∈ p.topLevelNames) :
    x ∈ p.globalNames := by
  simp only [globalNames, mem_sortNames, List.mem_append]
  exact .inl (.inr (Statement.listAssigned_subset_referenced p.tree x hx))

theorem Program.layout_start {source : String} (hp : Program.parse source = .ok p) :
    p.environment.layout p = .main := by
  obtain ⟨declared, he⟩ := environment_of_parse hp
  simp [Environment.layout, he]

theorem Program.linked_of_parse {source : String} (hp : Program.parse source = .ok p) {first : Nat}
    (ho : (p.code first).obstacle = none) : Linked p (p.code first).lines :=
  Program.linked (procedures_nodup hp) ho

/-- There is a machine at the start. -/
theorem Linked.exists_starts (hlink : Linked p lines) : ∃ m : Machine, m.Starts lines := by
  obtain ⟨n, first, hcode⟩ := hlink.main
  refine ⟨⟨n, fun _ => .stack 0, .word 0, fun _ => .word 0,
    fun label => (wordAt? lines label).map .word, "", none⟩, ?_, ⟨0, rfl, by omega⟩, fun _ => rfl,
    rfl, rfl⟩
  exact labelLine?_of_nodup hlink.labels hcode.left.left.define

theorem Program.matches_start {source : String} (hp : Program.parse source = .ok p)
    (hlink : Linked p lines) (hm : m.Starts lines) : Matches p p.environment m := by
  obtain ⟨declared, he⟩ := environment_of_parse hp
  have hl := layout_start hp
  obtain ⟨a, ha, h4⟩ := hm.sp
  refine ⟨within_start hp, hm.running, fun x v hx => ?_, fun x hx => ?_, ⟨a, ha, h4, ?_⟩, ?_, ?_⟩
  · simp [he, Bindings.get?] at hx
  · rw [hm.data, Option.isSome_map]
    exact hlink.words x (topLevelNames_subset_globalNames hx)
  · rintro q locals f hq
    rw [hl] at hq
    cases hq
  · rintro q locals hq
    rw [hl] at hq
    cases hq
  · rintro q locals f x v hq
    rw [hl] at hq
    cases hq

/-! ## The end -/

/-- Behind the main program the code exits with zero. -/
theorem Machine.runs_end (hc : CodeAt lines m.line
    (ofInstructions [.loadImmediate .v0 10, .systemCall])) (hr : m.exitCode = none) :
    ∃ m', Ends lines m 0 m' ∧ m'.output = m.output ∧ m'.data = m.data := by
  have hload : CodeAt lines m.line (ofInstructions [.loadImmediate .v0 10]) :=
    CodeAt.left (b := ofInstructions [.systemCall]) hc
  have hrun : m.Runs lines ((m.set .v0 (.word 10)).goto (m.line + 1)) :=
    runs_effects hload hr (by simp [effects, effect])
  have hcall : ((m.set .v0 (.word 10)).goto (m.line + 1)).exitCall? = some 0 := by
    simp [exitCall?]
  have hexit := runs_exitCall (m := (m.set .v0 (.word 10)).goto (m.line + 1)) hr
    hc.tail.instruction hcall
  exact ⟨_, ⟨hrun.trans hexit, rfl⟩, rfl, rfl⟩

/-- The division guard prints its message and exits with one. -/
theorem Machine.runs_guard (hlink : Linked p lines) (hc : CodeAt lines m.line guardCode)
    (hr : m.exitCode = none) :
    ∃ m', Ends lines m 1 m' ∧ m'.output = m.output ++ "Division by zero\n" := by
  have hbody := hc.right
  have hlast := hbody.tail.tail.tail.tail.tail
  have hprint : CodeAt lines (m.line + 1) (ofInstructions
      [.loadAddress .a0 .divisionMessage, .loadImmediate .v0 4, .systemCall, .loadImmediate .a0 1,
        .loadImmediate .v0 17]) :=
    CodeAt.left (b := ofInstructions [.systemCall]) hbody
  obtain ⟨m₁, he, hcall, hout⟩ : ∃ m₁, (m.goto (m.line + 1)).effects lines
      [.loadAddress .a0 .divisionMessage, .loadImmediate .v0 4, .systemCall, .loadImmediate .a0 1,
        .loadImmediate .v0 17] = some m₁ ∧ m₁.exitCall? = some 1 ∧
      m₁.output = m.output ++ "Division by zero\n" := by
    simp [effects, effect, printCall, hlink.divisionMessage, exitCall?]
  have hr₁ : m₁.exitCode = none := (effects_keeps he).2.trans hr
  have hrun := runs_effects (m := m.goto (m.line + 1)) hprint hr he
  have hexit := runs_exitCall (m := m₁.goto (m.line + 1 + 5)) hr₁ hlast.instruction hcall
  exact ⟨_, ⟨((runs_define hc.left hr).trans hrun).trans hexit, rfl⟩, hout⟩

/-! ## Runs of source texts -/

/-- From `main`, a machine follows the run of a program, to the code behind it or to the guard. -/
theorem Program.follows {source : String} (hp : Program.parse source = .ok p)
    (hlink : Linked p lines) (hm : m.Starts lines) {fuel : Nat} {console : Console}
    (hproper : ∀ ev ∈ p.events fuel console, ev.Proper p) :
    ((p.trace fuel console).outcome = .done () → ∃ m', m.Runs lines m' ∧
      m'.output = printed (p.events fuel console) ∧
      Matches p (p.trace fuel console).state.environment m' ∧
      CodeAt lines m'.line (ofInstructions [.loadImmediate .v0 10, .systemCall])) ∧
    ((p.trace fuel console).outcome = .failed .divisionByZero → ∃ m', m.Runs lines m' ∧
      m'.output = printed (p.events fuel console) ∧ m'.exitCode = none ∧
      CodeAt lines m'.line guardCode) := by
  obtain ⟨n, first, hcode⟩ := hlink.main
  rw [Program.mainCode, append_assoc] at hcode
  obtain rfl : n = m.line := by
    have hlabel := labelLine?_of_nodup hlink.labels hcode.left.define
    rw [hm.line] at hlabel
    exact (Option.some.inj hlabel).symm
  have hl := layout_start hp
  have hreach := (reaches_all hlink fuel).2.2.2 p.tree ⟨p.environment, console⟩
    (m.goto (m.line + 1)) first (matches_start hp hlink hm).goto
    (by rw [hl]; exact hcode.right.left) (fun x hx => by rw [Assignable, hl]; exact hx)
  obtain ⟨hd, hg⟩ := hreach.steps (runs_define hcode.left hm.running) rfl hproper
  have hempty : ∀ text, m.output ++ text = text := fun text => by
    rw [hm.output, String.empty_append]
  refine ⟨fun hdone => ?_, fun hfailed => ?_⟩
  · obtain ⟨m', hrun, hout, hm', hline, -⟩ := hd () hdone
    refine ⟨m', hrun, hout.trans (hempty _), hm', ?_⟩
    rw [hline, hl]
    exact hcode.right.right
  · obtain ⟨m', hrun, hout, hr, hguard⟩ := hg hfailed
    exact ⟨m', hrun, hout.trans (hempty _), hr, hguard⟩

/-- The code that was written for a source text does what the text does, in each run that creates no
local variable whose name the main program assigns to. If the run is done, the code exits with zero,
has printed the words of the displayed values, and holds the words of the global variables. If the
run ends with a division by zero, the code has printed the same and a message, and exits with
one. -/
theorem compiled_code_follows_run {source : String} (hp : Program.parse source = .ok p)
    {sink : Sink} {e : Emitter} (hcompile : ({ sink } : Emitter).compile p = (.ok (), e))
    {fuel : Nat} {console : Console} (hproper : ∀ ev ∈ p.events fuel console, ev.Proper p) :
    let lines := (p.code 1).lines
    let run := p.run fuel console
    let events := p.events fuel console
    e.sink.written = sink.written ++ (listing lines).toUTF8 ∧
    ((∀ error, run.1 ≠ .failed (.io error)) → run.2.console.output.written =
      console.output.written ++ (shown events).toUTF8) ∧
    ∀ m : Machine, m.Starts lines →
      (run.1 = .done () → ∃ m', m.Ends lines 0 m' ∧ m'.output = printed events ∧
        ∀ x v, run.2.environment.globals.get? x = some v →
          m'.data (.variable x) = some v.content) ∧
      (run.1 = .failed .divisionByZero → ∃ m', m.Ends lines 1 m' ∧
        m'.output = printed events ++ "Division by zero\n") := by
  intro lines run events
  obtain ⟨ho, hwritten⟩ := Emitter.compile_eq_ok hcompile
  have hlink : Linked p lines := Program.linked_of_parse hp ho
  have htrace : run = ((p.trace fuel console).outcome, (p.trace fuel console).state) :=
    (Program.forget_trace fuel p console).symm
  refine ⟨hwritten, p.written_of_run fuel console, fun m hm => ?_⟩
  obtain ⟨hd, hg⟩ := Program.follows hp hlink hm hproper
  rw [htrace]
  refine ⟨fun hdone => ?_, fun hfailed => ?_⟩
  · obtain ⟨m₁, hrun, hout, hm₁, hend⟩ := hd hdone
    obtain ⟨m', hends, hout', hdata⟩ := runs_end hend hm₁.running
    refine ⟨m', ⟨hrun.trans hends.runs, hends.exit⟩, hout'.trans hout, fun x v hx => ?_⟩
    rw [hdata]
    exact hm₁.globals x v hx
  · obtain ⟨m₁, hrun, hout, hr, hguard⟩ := hg hfailed
    obtain ⟨m', hends, hout'⟩ := runs_guard hlink hguard hr
    exact ⟨m', ⟨hrun.trans hends.runs, hends.exit⟩, by rw [hout', hout]⟩

/-! ## A recursive program -/

def factorialText : String :=
  "procedure fact(n) if n = 0 do assign fact = 1 else assign fact = n * fact(n - 1) end end " ++
    "assign x = fact(3) display x = 6"

def factorialTree : List Statement :=
  [.procedure "fact" ["n"] [.branch (.binary (.variable "n") .equal (.number 0))
      [.assign "fact" (.number 1)]
      [.assign "fact" (.binary (.variable "n") .multiply
        (.call "fact" [.binary (.variable "n") .subtract (.number 1)]))]],
    .assign "x" (.call "fact" [.number 3]),
    .display (.binary (.variable "x") .equal (.number 6))]

def factorialProgram : Program := ⟨factorialTree, .ofTree factorialTree⟩

/-- Its code ends with the word of `true` printed and six in the word of `x`. -/
theorem compiled_code_follows_run_factorial :
    let lines := (factorialProgram.code 1).lines
    (∃ m : Machine, m.Starts lines) ∧ ∀ m : Machine, m.Starts lines → ∃ m', m.Ends lines 0 m' ∧
      m'.output = "1\n" ∧ m'.data (.variable "x") = some (.word 6) := by
  intro lines
  have hparse : Program.parse factorialText = .ok factorialProgram := by decide +kernel
  have ho : (factorialProgram.code 1).obstacle = none := by decide
  obtain ⟨e, hcompile⟩ : ∃ e, ({} : Emitter).compile factorialProgram = (.ok (), e) :=
    Emitter.compile_of_unlimited rfl ho
  have hproper : ∀ ev ∈ factorialProgram.events 40 {}, ev.Proper factorialProgram := by
    decide +kernel
  obtain ⟨-, -, hmachine⟩ := compiled_code_follows_run hparse hcompile hproper
  refine ⟨(Program.linked_of_parse hparse ho).exists_starts, fun m hm => ?_⟩
  obtain ⟨m', hends, hout, hglobals⟩ := (hmachine m hm).1 (by decide +kernel)
  exact ⟨m', hends, hout.trans (by decide +kernel), hglobals "x" (.integer 6) (by decide +kernel)⟩

end Blockwork
