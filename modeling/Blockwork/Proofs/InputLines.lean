import Blockwork.Proofs.Recording
import Blockwork.Proofs.Trace

/-!
# Lines of input

Each read takes one line of the input, whatever is on it and whatever comes of it, and nothing else
looks at the input. So a run leaves what stands behind as many lines as it has started to read. If
these lines have an end, a run depends on nothing that stands behind them.

* `behindLine`, `behindLines`: an input without its first lines; a line ends at a newline or at the
  end of the input.
* `closedLines`: lines that have an end; `behindLines_closedLines`, `splitLine_closed`.
* `reads`: how many lines a run has started to read.
* `Traced.ReadsLines`: executions that take lines as they should and are blind for the rest, one
  lemma for each step; `Traced.readsLines_rules` says that all of them are.
* `reads_take_whole_lines`: the same of the run of a program.
-/

namespace Blockwork

/-! ## Lines -/

/-- An input without its first line, which ends at a newline or at the end of the input. -/
def behindLine (input : List UInt8) : List UInt8 := (input.dropWhile (· ≠ 10)).tail

/-- An input without a number of lines at its front. -/
def behindLines : Nat → List UInt8 → List UInt8
  | 0, input => input
  | count + 1, input => behindLines count (behindLine input)

/-- Some lines, each with a newline at its end. -/
def closedLines (lines : List (List UInt8)) : List UInt8 := lines.flatMap (· ++ [10])

theorem behindLines_add (m n : Nat) (input : List UInt8) :
    behindLines (m + n) input = behindLines n (behindLines m input) := by
  induction m generalizing input with
  | zero => rw [Nat.zero_add, behindLines]
  | succ m ih => rw [Nat.succ_add, behindLines, behindLines, ih]

theorem closedLines_append (first second : List (List UInt8)) :
    closedLines (first ++ second) = closedLines first ++ closedLines second :=
  List.flatMap_append

theorem behindLines_closedLines {lines : List (List UInt8)} (h : ∀ line ∈ lines, 10 ∉ line)
    (rest : List UInt8) : behindLines lines.length (closedLines lines ++ rest) = rest := by
  induction lines with
  | nil => rfl
  | cons line lines ih =>
    obtain ⟨hline, hlines⟩ := List.forall_mem_cons.1 h
    have hskip : (line ++ 10 :: (closedLines lines ++ rest)).dropWhile (· ≠ 10) =
        10 :: (closedLines lines ++ rest) := by
      rw [List.dropWhile_append_of_pos fun b hb =>
        decide_eq_true (p := b ≠ 10) fun h => hline (h ▸ hb)]
      rfl
    have hfirst : behindLine (closedLines (line :: lines) ++ rest) = closedLines lines ++ rest := by
      have hcons : closedLines (line :: lines) ++ rest =
        line ++ 10 :: (closedLines lines ++ rest) := by simp [closedLines]
      rw [hcons, behindLine, hskip, List.tail_cons]
    rw [List.length_cons, behindLines, hfirst, ih hlines]

theorem splitLine_closed {line : List UInt8} (h : 10 ∉ line) (rest : List UInt8) :
    splitLine (line ++ 10 :: rest) = (line ++ [10], rest) := by
  induction line with
  | nil => rfl
  | cons b line ih =>
    rw [List.mem_cons, not_or] at h
    rw [List.cons_append, splitLine, if_neg (Ne.symm h.1), ih h.2]
    rfl

theorem splitLine_rest (input : List UInt8) : (splitLine input).2 = behindLine input := by
  induction input with
  | nil => rfl
  | cons b input ih =>
    rw [splitLine, behindLine, List.dropWhile_cons]
    by_cases hb : b = 10
    · simp [hb]
    · rw [if_neg hb, if_pos (by simpa using hb)]
      exact ih

/-- How many lines a run has started to read, those that no number comes from included. -/
def reads (events : List Event) : Nat :=
  events.countP fun
    | .read _ => true
    | .write .. | .display _ => false

theorem reads_append (first second : List Event) :
    reads (first ++ second) = reads first + reads second :=
  List.countP_append

/-! ## Reads -/

namespace Console

/-- A read takes the first line in any case. -/
theorem input_readInteger (c : Console) (name : String) :
    (c.readInteger name).2.input = behindLine c.input := by
  unfold readInteger
  split
  next h => rw [h]; rfl
  next => exact splitLine_rest c.input

/-- A read of a line that has an end is blind for what stands behind it. -/
theorem readInteger_closed {line : List UInt8} (h : 10 ∉ line) (rest : List UInt8) (output : Sink)
    (name : String) :
    (⟨line ++ 10 :: rest, output⟩ : Console).readInteger name =
      (readLine (line ++ [10]), ⟨rest, output⟩) := by
  unfold readInteger
  split
  next hnil => simp at hnil
  next => rw [splitLine_closed h]

theorem display_input (c : Console) (v : Value) (input : List UInt8) :
    ({ c with input } : Console).display v = ((c.display v).1, { (c.display v).2 with input }) := by
  unfold display
  cases c.output.write (v.text ++ "\n") with
  | mk result output => cases result <;> rfl

end Console

/-- The state with another input. -/
def State.withInput (s : State) (input : List UInt8) : State := { s with console.input := input }

namespace Traced

variable {α β : Type}

def Result.withInput (r : Result α) (input : List UInt8) : Result α :=
  { r with state := r.state.withInput input }

/-- The execution leaves the input behind the lines that it reads, and if these have an end, it is
blind for what it leaves. -/
structure ReadsLines (x : Traced α) : Prop where
  leaves : ∀ s : State,
    (x s).state.console.input = behindLines (reads (x s).events) s.console.input
  blind : ∀ (s : State) (lines : List (List UInt8)) (rest other : List UInt8),
    (∀ line ∈ lines, 10 ∉ line) → lines.length = reads (x s).events →
    s.console.input = closedLines lines ++ rest →
    x (s.withInput (closedLines lines ++ other)) = (x s).withInput other

/-- An execution that reads no line is one that is blind for the whole input. -/
theorem ReadsLines.of_silent {x : Traced α} (hreads : ∀ s, reads (x s).events = 0)
    (hinput : ∀ s, (x s).state.console.input = s.console.input)
    (hblind : ∀ (s : State) (other : List UInt8), x (s.withInput other) = (x s).withInput other) :
    ReadsLines x where
  leaves s := by rw [hreads, hinput]; rfl
  blind s lines rest other _ hcount _ := by
    rw [hreads, List.length_eq_zero_iff] at hcount
    rw [hcount]
    exact hblind s other

theorem ReadsLines.ask (f : Environment → Except RuntimeError α) : ReadsLines (ask f) := by
  refine .of_silent (fun _ => rfl) (fun s => by rw [ask_state]) fun s other => ?_
  have henv : (s.withInput other).environment = s.environment := rfl
  simp only [Traced.ask, record, Execution.ask, Execution.ofExcept, henv]
  cases f s.environment <;> rfl

theorem ReadsLines.bind {x : Traced α} {f : α → Traced β} (hx : ReadsLines x)
    (hf : ∀ a, ReadsLines (f a)) : ReadsLines (x >>= f) := by
  refine ⟨fun s => ?_, fun s lines rest other hlines hcount hinput => ?_⟩
  · have hs := hx.leaves s
    obtain ⟨a, t, es, h, he⟩ | ⟨e, t, es, h, he⟩ | ⟨t, es, h, he⟩ := bind_result x f s <;>
      rw [h] at hs <;> rw [he]
    · have ht := (hf a).leaves t
      rw [ht, reads_append, behindLines_add, hs]
    · exact hs
    · exact hs
  · show Traced.bind x f _ = _
    obtain ⟨a, t, es, h, he⟩ | ⟨e, t, es, h, he⟩ | ⟨t, es, h, he⟩ := bind_result x f s <;>
      rw [he] at hcount ⊢
    · rw [reads_append] at hcount
      obtain ⟨first, second, rfl, hfirst⟩ : ∃ first second,
          lines = first ++ second ∧ first.length = reads es :=
        ⟨_, _, (List.take_append_drop (reads es) lines).symm, List.length_take_of_le (by omega)⟩
      rw [List.length_append, hfirst, Nat.add_left_cancel_iff] at hcount
      obtain ⟨hfirsts, hseconds⟩ := List.forall_mem_append.1 hlines
      rw [closedLines_append, List.append_assoc] at hinput ⊢
      have hleft := hx.leaves s
      have hblind := hx.blind s first _ (closedLines second ++ other) hfirsts (by rw [h, hfirst])
        hinput
      rw [h] at hleft hblind
      rw [hinput, ← hfirst, behindLines_closedLines hfirsts] at hleft
      rw [Traced.bind, hblind]
      show ({ f a (t.withInput _) with events := _ } : Result β) = _
      rw [(hf a).blind t second rest other hseconds hcount hleft]
      rfl
    · have hblind := hx.blind s lines rest other hlines (by rw [h, hcount]) hinput
      rw [Traced.bind, hblind, h]
      rfl
    · have hblind := hx.blind s lines rest other hlines (by rw [h, hcount]) hinput
      rw [Traced.bind, hblind, h]
      rfl

theorem ReadsLines.call {p : Procedure} {values : List Value} {body : Traced Unit}
    (hb : ReadsLines body) : ReadsLines (Traced.call p values body) := by
  refine ⟨fun s => ?_, fun s lines rest other hlines hcount hinput => ?_⟩
  · obtain ⟨e, -, he⟩ | ⟨inner, r, -, hr, he⟩ := call_result p values body s
    · rw [he]
      rfl
    · have hs := hb.leaves { s with environment := inner }
      rw [hr] at hs
      rw [he]
      exact hs
  · have henv : (s.withInput (closedLines lines ++ other)).environment = s.environment := rfl
    simp only [Traced.call, henv] at hcount ⊢
    cases henter : s.environment.enter p values with
    | error e =>
      rw [henter] at hcount
      obtain rfl : lines = [] := List.length_eq_zero_iff.1 hcount
      rfl
    | ok inner =>
      rw [henter] at hcount
      have hblind := hb.blind { s with environment := inner } lines rest other hlines hcount hinput
      have hinner (bytes : List UInt8) :
          ({ s with environment := inner } : State).withInput bytes =
            { s.withInput bytes with environment := inner } := rfl
      rw [hinner] at hblind
      dsimp only
      rw [hblind]
      rfl

theorem ReadsLines.assign (name : String) (value : Value) :
    ReadsLines (Traced.assign name value) :=
  .of_silent (fun _ => rfl) (fun _ => rfl) fun _ _ => rfl

theorem ReadsLines.display (value : Value) : ReadsLines (Traced.display value) := by
  refine .of_silent (fun _ => rfl) (fun s => ?_) fun s other => ?_
  · have hinput : (s.console.display value).2.input = s.console.input :=
      congrArg (·.2.input) (s.console.display_input value s.console.input)
    simp only [Traced.display, record, Execution.display, Execution.ofExcept]
    split <;> exact hinput
  · have hconsole : (s.withInput other).console = { s.console with input := other } := rfl
    simp only [Traced.display, record, Execution.display, hconsole, Console.display_input]
    cases (s.console.display value).1 <;> rfl

/-- A read takes a line, and what it comes to depends on this line only. -/
theorem ReadsLines.read (name : String) : ReadsLines (Traced.read name) := by
  refine ⟨fun s => ?_, fun s lines rest other hlines hcount hinput => ?_⟩
  · have hrest := s.console.input_readInteger name
    simp only [Traced.read, record, Execution.read, Execution.ofExcept]
    split <;> exact hrest
  · obtain ⟨line, rfl⟩ := List.length_eq_one_iff.1 hcount
    obtain ⟨environment, input, output⟩ := s
    have hclosed (more : List UInt8) : closedLines [line] ++ more = line ++ 10 :: more := by
      simp [closedLines]
    have hline : 10 ∉ line := hlines line List.mem_cons_self
    obtain rfl : input = line ++ 10 :: rest := hinput.trans (hclosed rest)
    simp only [Traced.read, record, Execution.read, State.withInput, hclosed,
      Console.readInteger_closed hline, Execution.ofExcept]
    cases readLine (line ++ [10]) <;> rfl

theorem readsLines_rules : Rules ReadsLines (fun _ => ReadsLines) where
  ask := .ask
  exhausted := .of_silent (fun _ => rfl) (fun _ => rfl) fun _ _ => rfl
  bind := .bind
  call hv hb := .bind (.ask _) fun p => .bind hv fun _ => .call (hb p)
  compute hx := hx
  sequence := .bind
  assign _ := .assign _ _
  read := .read _
  display := .display _

end Traced

/-- What a run leaves of its input is the input without as many lines as the run has started to
read. If these lines have an end, the run would have been the same with anything else behind them:
it would have come to the same outcome, output and values of variables by the same events, and it
would have left what stands there instead. -/
theorem reads_take_whole_lines (fuel : Nat) (p : Program) (input : List UInt8) (output : Sink) :
    let run := p.run fuel ⟨input, output⟩
    let events := p.events fuel ⟨input, output⟩
    run.2.console.input = behindLines (reads events) input ∧
    ∀ (lines : List (List UInt8)) (rest other : List UInt8),
      (∀ line ∈ lines, 10 ∉ line) → lines.length = reads events →
      input = closedLines lines ++ rest →
      p.run fuel ⟨closedLines lines ++ other, output⟩ = (run.1, run.2.withInput other) ∧
        p.events fuel ⟨closedLines lines ++ other, output⟩ = events := by
  intro run events
  have hreads : Traced.ReadsLines (Statement.traceAll fuel p.tree) :=
    (Traced.readsLines_rules.trace fuel).2.2.2 (fun _ => True) p.tree fun _ _ => trivial
  have hrun : run =
      ((p.trace fuel ⟨input, output⟩).outcome, (p.trace fuel ⟨input, output⟩).state) :=
    (p.forget_trace fuel ⟨input, output⟩).symm
  refine ⟨?_, fun lines rest other hlines hcount hinput => ?_⟩
  · rw [hrun]
    exact hreads.leaves ⟨p.environment, input, output⟩
  · have hblind : p.trace fuel ⟨closedLines lines ++ other, output⟩ =
        (p.trace fuel ⟨input, output⟩).withInput other :=
      hreads.blind ⟨p.environment, input, output⟩ lines rest other hlines hcount hinput
    rw [← p.forget_trace, Program.events, hblind, hrun]
    exact ⟨rfl, rfl⟩

/-! ## A run that fails at its third line -/

/-- The main program reads how often to call a procedure that reads a number. -/
def askingTree : List Statement :=
  [.procedure "ask" [] [.read "ask"], .read "n",
    .loop (.binary (.variable "n") .greater (.number 0))
      [.display (.call "ask" []), .assign "n" (.binary (.variable "n") .subtract (.number 1))]]

def askingProgram : Program := ⟨askingTree, .ofTree askingTree⟩

/-- The lines `2`, `+5` and `x`. -/
def askingLines : List (List UInt8) := [[50], [43, 53], [120]]

/-- The run fails for the third line, and the rest of the input, a line and a byte that is no text
by itself, can be left out or replaced. -/
theorem reads_take_whole_lines_asking :
    let console (rest : List UInt8) : Console := ⟨closedLines askingLines ++ rest, {}⟩
    reads (askingProgram.events 40 (console [55, 10, 255])) = 3 ∧
    (askingProgram.run 40 (console [55, 10, 255])).2.console.input = [55, 10, 255] ∧
    ∀ other, (askingProgram.run 40 (console other)).1 = .failed (.invalidInput "x") ∧
      (askingProgram.run 40 (console other)).2.console.input = other ∧
      reads (askingProgram.events 40 (console other)) = 3 := by
  intro console
  have hcount : reads (askingProgram.events 40 (console [55, 10, 255])) = 3 := by decide +kernel
  have houtcome : (askingProgram.run 40 (console [55, 10, 255])).1 =
    .failed (.invalidInput "x") := by decide +kernel
  have hlines : ∀ line ∈ askingLines, 10 ∉ line := by decide
  obtain ⟨hleft, hblind⟩ := reads_take_whole_lines 40 askingProgram (console [55, 10, 255]).input {}
  refine ⟨hcount, ?_, fun other => ?_⟩
  · rw [hleft, hcount]
    exact behindLines_closedLines hlines _
  · obtain ⟨hrun, hevents⟩ := hblind askingLines [55, 10, 255] other hlines hcount.symm rfl
    rw [hrun, hevents]
    exact ⟨houtcome, rfl, hcount⟩

end Blockwork
