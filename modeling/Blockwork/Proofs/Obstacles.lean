import Blockwork.Proofs.CodeAt
import Blockwork.Proofs.Emission
import Blockwork.Proofs.Recording
import Blockwork.Proofs.Steps

/-!
# The first obstacle

There is no code for reading, and a call needs a declared procedure with one parameter for each
argument. Code generation looks for such obstacles while it writes: it goes through the main program
and then through the procedures, each from left to right, and stops at the first obstacle.

* `Environment.Blocks`: the sites that are obstacles, and which; `Environment.obstacle?` finds them.
* `Expression.obstacle_code`, `Statement.obstacle_code`: the obstacle of a tree's code is that of
  the first site that is one, by recursion on trees.
* `Program.sites`, `Program.obstacle_code`: the same for whole programs.
* `compile_reports_first_obstacle`: so it is for what compiling reports.
-/

namespace Blockwork

open Code

/-! ## Sites that are obstacles -/

namespace Environment

/-- There is no code for a site, and why. That the procedure of a call is not declared is noticed
before the number of arguments. -/
inductive Blocks (env : Environment) : Site → Obstacle → Prop where
  | read (name : String) : Blocks env (.read name) .read
  | undeclared {name : String} {count : Nat} (h : ∀ p ∈ env.procedures, p.name ≠ name) :
    Blocks env (.call name count) (.undefinedProcedure name)
  | arity {name : String} {count : Nat} {p : Procedure} (hp : env.getProcedure name = .ok p)
    (h : p.parameters.length ≠ count) :
    Blocks env (.call name count) (.arityMismatch name p.parameters.length count)

/-- The obstacle that a site is, if it is one. -/
def obstacle? (env : Environment) : Site → Option Obstacle
  | .read _ => some .read
  | .call name count =>
    match env.getProcedure name with
    | .error _ => some (.undefinedProcedure name)
    | .ok p =>
      if p.parameters.length = count then none
      else some (.arityMismatch name p.parameters.length count)

variable {env : Environment} {name : String}

theorem getProcedure_isError : (∃ e, env.getProcedure name = .error e) ↔
    ∀ p ∈ env.procedures, p.name ≠ name := by
  unfold getProcedure
  cases hf : env.procedures.find? fun p => p.name = name with
  | none => simpa using hf
  | some p =>
    have hp : p.name = name := by simpa using List.find?_some hf
    simpa using ⟨p, List.mem_of_find?_eq_some hf, hp⟩

theorem obstacle?_eq_some {site : Site} {o : Obstacle} :
    env.obstacle? site = some o ↔ env.Blocks site o := by
  constructor
  · intro h
    cases site with
    | read name => cases h; exact .read name
    | call name count =>
      simp only [obstacle?] at h
      split at h
      next e he => cases h; exact .undeclared (getProcedure_isError.1 ⟨e, he⟩)
      next p hp =>
        split at h
        next => cases h
        next hcount => cases h; exact .arity hp hcount
  · intro h
    cases h with
    | read name => rfl
    | undeclared h =>
      obtain ⟨e, he⟩ := getProcedure_isError.2 h
      simp only [obstacle?, he]
    | arity hp h => simp only [obstacle?, hp, if_neg h]

theorem obstacle?_eq_none {site : Site} :
    env.obstacle? site = none ↔ ∀ o, ¬ env.Blocks site o := by
  simp only [Option.eq_none_iff_forall_not_mem, Option.mem_def, obstacle?_eq_some]

end Environment

/-! ## The obstacle of a piece of code -/

namespace Code

theorem obstacle_append (a b : Code) : (a ++ b).obstacle = a.obstacle.or b.obstacle := by
  rw [append_def]
  cases h : a.obstacle with
  | none => simp
  | some o => simp [h]

theorem obstacle_append_eq_none {a b : Code} :
    (a ++ b).obstacle = none ↔ a.obstacle = none ∧ b.obstacle = none := by
  rw [obstacle_append, Option.or_eq_none_iff]

@[simp] theorem obstacle_empty : empty.obstacle = none := rfl

@[simp] theorem obstacle_ofLines (lines : List Line) : (ofLines lines).obstacle = none := rfl

@[simp] theorem obstacle_ofInstructions (is : List Instruction) :
    (ofInstructions is).obstacle = none := rfl

@[simp] theorem obstacle_mint : Code.mint.obstacle = none := rfl

@[simp] theorem obstacle_define (number : Nat) : (Code.define number).obstacle = none := rfl

end Code

@[simp] theorem obstacle_push : push.obstacle = none := rfl

@[simp] theorem obstacle_pop : pop.obstacle = none := rfl

@[simp] theorem obstacle_print : print.obstacle = none := rfl

variable (scope : Scope)

theorem Scope.obstacle_checkCall (name : String) (count : Nat) :
    (scope.checkCall name count).obstacle = scope.environment.obstacle? (.call name count) := by
  simp only [Scope.checkCall, Environment.obstacle?]
  cases scope.environment.getProcedure name with
  | error e => rfl
  | ok p =>
    show (if _ then empty else blocked _).obstacle = if _ then _ else _
    split <;> rfl

/-! ## The obstacle of a tree -/

mutual

theorem Expression.obstacle_code : (e : Expression) →
    (e.code scope).obstacle = e.sites.findSome? scope.environment.obstacle?
  | .number _ | .variable _ => rfl
  | .binary left _ right => by
    simp [Expression.code, Expression.sites, obstacle_append, left.obstacle_code,
      right.obstacle_code]
  | .call name arguments => by
    have hrelease : (if arguments.isEmpty then empty
        else ofInstructions [.release (wordSize * arguments.length)]).obstacle = none := by
      split <;> rfl
    rw [Expression.code, Expression.sites, obstacle_append, obstacle_append, obstacle_append,
      hrelease, Scope.obstacle_checkCall, Expression.obstacle_argumentCode arguments,
      List.findSome?_cons]
    cases scope.environment.obstacle? (.call name arguments.length) <;> simp

theorem Expression.obstacle_argumentCode : (es : List Expression) →
    (Expression.argumentCode scope es).obstacle =
      (Expression.listSites es).findSome? scope.environment.obstacle?
  | [] => rfl
  | e :: es => by
    simp [Expression.argumentCode, Expression.listSites, obstacle_append, e.obstacle_code,
      Expression.obstacle_argumentCode es]

end

theorem obstacle_branchUnless (condition : Expression) (target : Nat) :
    (branchUnless scope condition target).obstacle =
      condition.sites.findSome? scope.environment.obstacle? := by
  simp [branchUnless, obstacle_append, condition.obstacle_code]

mutual

/-- Which labels the code of a statement mints makes no difference to its obstacle. -/
theorem Statement.obstacle_code (first : Nat) : (s : Statement) →
    (s.code scope first).obstacle = s.sites.findSome? scope.environment.obstacle?
  | .assign name value => by
    simp [Statement.code, Statement.sites, obstacle_append, value.obstacle_code]
  | .block body => Statement.obstacle_listCode first body
  | .branch condition onTrue [] => by
    simp [Statement.code, Statement.sites, Statement.listSites, obstacle_append,
      obstacle_branchUnless, Statement.obstacle_listCode _ onTrue]
  | .branch condition onTrue (s :: ss) => by
    have hfalse := fun n => Statement.obstacle_listCode n (s :: ss)
    simp [Statement.code, Statement.sites, obstacle_append, obstacle_branchUnless,
      Statement.obstacle_listCode _ onTrue, hfalse, Option.or_assoc]
  | .loop condition body => by
    simp [Statement.code, Statement.sites, obstacle_append, obstacle_branchUnless,
      Statement.obstacle_listCode _ body]
  | .read _ | .procedure .. => rfl
  | .display value => by
    simp [Statement.code, Statement.sites, obstacle_append, value.obstacle_code]
  | .return value => value.obstacle_code scope

theorem Statement.obstacle_listCode (first : Nat) : (ss : List Statement) →
    (Statement.listCode scope first ss).obstacle =
      (Statement.listSites ss).findSome? scope.environment.obstacle?
  | [] => rfl
  | s :: ss => by
    simp [Statement.listCode, Statement.listSites, obstacle_append, s.obstacle_code,
      Statement.obstacle_listCode _ ss]

end

theorem obstacle_routines (environment : Environment) (topLevel : List String) (first : Nat)
    (qs : List Procedure) : (routines environment topLevel first qs).obstacle =
      (qs.flatMap fun q => Statement.listSites q.body).findSome? environment.obstacle? := by
  induction qs generalizing first with
  | nil => rfl
  | cons q qs ih =>
    simp [routines, Procedure.code, obstacle_append, Statement.obstacle_listCode, ih]

/-! ## Programs -/

/-- The calls and reads of a program, in the order in which code is generated: those of the main
program, and then those of the procedures in the order of their declarations. -/
def Program.sites (p : Program) : List Site :=
  Statement.listSites p.tree ++
    p.environment.procedures.flatMap fun q => Statement.listSites q.body

theorem Program.obstacle_code (p : Program) (first : Nat) :
    (p.code first).obstacle = p.sites.findSome? p.environment.obstacle? := by
  simp [Program.code, Program.sites, obstacle_append, Statement.obstacle_listCode,
    obstacle_routines]

/-- If everything can be written, a program can be compiled exactly if none of its sites is an
obstacle. Otherwise compiling reports the obstacle that the first such site is. -/
theorem compile_reports_first_obstacle (p : Program) (e : Emitter) (h : e.sink.limit = none) :
    ((e.compile p).1 = .ok () ↔
      ∀ site ∈ p.sites, ∀ o, ¬ p.environment.Blocks site o) ∧
    ∀ error, (e.compile p).1 = .error error ↔ ∃ before site after o,
      p.sites = before ++ site :: after ∧
      (∀ s ∈ before, ∀ o, ¬ p.environment.Blocks s o) ∧
      p.environment.Blocks site o ∧ error = .obstacle o := by
  simp only [← Environment.obstacle?_eq_none]
  simp only [← Environment.obstacle?_eq_some]
  rw [Emitter.compile_eq_of_unlimited h, p.obstacle_code]
  cases hfind : p.sites.findSome? p.environment.obstacle? with
  | none =>
    have hall := List.findSome?_eq_none_iff.1 hfind
    refine ⟨iff_of_true rfl hall, fun error => iff_of_false nofun ?_⟩
    rintro ⟨before, site, after, o, hsites, -, ho, -⟩
    rw [hall site (by simp [hsites])] at ho
    cases ho
  | some o =>
    obtain ⟨before, site, after, hsites, ho, hbefore⟩ := List.findSome?_eq_some_iff.1 hfind
    refine ⟨iff_of_false nofun fun hall => ?_, fun error => ⟨fun herror => ?_, ?_⟩⟩
    · rw [hall site (by simp [hsites])] at ho
      cases ho
    · cases herror
      exact ⟨before, site, after, o, hsites, hbefore, ho, rfl⟩
    · rintro ⟨before', site', after', o', hsites', hbefore', ho', rfl⟩
      have hfind' := List.findSome?_eq_some_iff.2 ⟨before', site', after', hsites', ho', hbefore'⟩
      rw [hfind] at hfind'
      cases hfind'
      rfl

/-- A call with an argument too many, which is a call of a procedure that is not declared; a branch
and a procedure that read. -/
def blockedTree : List Statement :=
  [.procedure "f" ["a"] [.read "a"], .display (.call "f" [.number 2]),
    .block [.branch (.call "f" [.number 1, .call "g" []]) [.assign "x" (.number 1)] [.read "y"]]]

/-- The number of arguments is what is reported. -/
theorem compile_reports_first_obstacle_blockedTree :
    ({} : Emitter).sink.limit = none ∧
      (({} : Emitter).compile ⟨blockedTree, .ofTree blockedTree⟩).1 =
        .error (.obstacle (.arityMismatch "f" 1 2)) := by
  let p : Program := ⟨blockedTree, .ofTree blockedTree⟩
  have hsites : p.sites =
      [.call "f" 1] ++ .call "f" 2 :: [.call "g" 0, .read "y", .read "a"] := by decide
  have hbefore : ∀ s ∈ [Site.call "f" 1], ∀ o, ¬ p.environment.Blocks s o :=
    List.forall_mem_singleton.2 (Environment.obstacle?_eq_none.1 (by decide))
  have hsite : p.environment.Blocks (.call "f" 2) (.arityMismatch "f" 1 2) :=
    Environment.obstacle?_eq_some.1 (by decide)
  exact ⟨rfl, ((compile_reports_first_obstacle p {} rfl).2 _).2
    ⟨_, _, _, _, hsites, hbefore, hsite, rfl⟩⟩

end Blockwork
