import Blockwork.Proofs.ClosedAssembly
import Blockwork.Proofs.DeclarationOrder
import Blockwork.Proofs.RoundTrip

/-!
# The data section is exact

The words of the data section are collected from what the parser has noted and from the names in the
tree, and the code decides for each name of each routine where it lives. The two agree: there is a
word for a name if and only if some instruction has its label as an operand.

* `Statement.variables_eq_referenced`, `Program.isName_of_mem_names`: the names of well-formed
  trees.
* `Program.mem_globalNames_of_parse`: a name that was only noted is in the frame of a procedure, or
  else some routine refers to it.
* `Code.Addresses`: an instruction of a piece uses a label. `Statement.code_addresses`,
  `Program.textCode_addresses`: each name is used that has a label.
* `storedName?`, `operandsOf`: how to read words and operands from a text.
* `ExactData`, `data_section_exact`: the two for what was written.
-/

namespace Blockwork

open Code

/-! ## Names of well-formed trees -/

mutual

theorem Expression.isName_of_mem_variables {x : String} : (e : Expression) → e.WellFormed →
    x ∈ e.variables → IsName x
  | .number _, _, hx => nomatch hx
  | .variable name, h, hx => by
    obtain rfl := List.mem_singleton.1 hx
    exact h
  | .binary left _ right, h, hx => by
    obtain hx | hx := List.mem_append.1 hx
    · exact left.isName_of_mem_variables h.1 hx
    · obtain hright | ⟨-, rfl⟩ := h.2
      · exact right.isName_of_mem_variables hright hx
      · cases hx
  | .call _ arguments, h, hx => Expression.isName_of_mem_listVariables arguments h.2 hx

theorem Expression.isName_of_mem_listVariables {x : String} : (es : List Expression) →
    Expression.ListWellFormed es → x ∈ Expression.listVariables es → IsName x
  | [], _, hx => nomatch hx
  | e :: es, h, hx => by
    obtain hx | hx := List.mem_append.1 hx
    · exact e.isName_of_mem_variables h.1 hx
    · exact Expression.isName_of_mem_listVariables es h.2 hx

end

mutual

theorem Statement.isName_of_mem_referenced {x : String} : (s : Statement) → s.WellFormed →
    x ∈ s.referenced → IsName x
  | .assign name value, h, hx => by
    obtain rfl | hx := List.mem_cons.1 hx
    · exact h.1
    · exact value.isName_of_mem_variables h.2 hx
  | .block body, h, hx => Statement.isName_of_mem_listReferenced body h hx
  | .branch condition onTrue onFalse, h, hx => by
    simp only [Statement.referenced, List.mem_append] at hx
    obtain (hx | hx) | hx := hx
    · exact condition.isName_of_mem_variables h.1 hx
    · exact Statement.isName_of_mem_listReferenced onTrue h.2.1 hx
    · exact Statement.isName_of_mem_listReferenced onFalse h.2.2 hx
  | .loop condition body, h, hx => by
    obtain hx | hx := List.mem_append.1 hx
    · exact condition.isName_of_mem_variables h.1 hx
    · exact Statement.isName_of_mem_listReferenced body h.2 hx
  | .read name, h, hx => by
    obtain rfl := List.mem_singleton.1 hx
    exact h
  | .display value, h, hx => value.isName_of_mem_variables h hx
  | .return value, h, hx => value.isName_of_mem_variables h hx
  | .procedure .., h, _ => h.elim

theorem Statement.isName_of_mem_listReferenced {x : String} : (ss : List Statement) →
    Statement.ListWellFormed ss → x ∈ Statement.listReferenced ss → IsName x
  | [], _, hx => nomatch hx
  | s :: ss, h, hx => by
    obtain hx | hx := List.mem_append.1 hx
    · exact s.isName_of_mem_referenced h.1 hx
    · exact Statement.isName_of_mem_listReferenced ss h.2 hx

end

mutual

/-- Without markers, the two walks meet the same names. -/
theorem Statement.variables_eq_referenced : (s : Statement) → s.WellFormed →
    s.variables = s.referenced
  | .assign .., _ | .read _, _ | .display _, _ | .return _, _ => rfl
  | .block body, h => Statement.listVariables_eq_listReferenced body h
  | .branch condition onTrue onFalse, h => by
    rw [Statement.variables, Statement.referenced,
      Statement.listVariables_eq_listReferenced onTrue h.2.1,
      Statement.listVariables_eq_listReferenced onFalse h.2.2]
  | .loop condition body, h => by
    rw [Statement.variables, Statement.referenced,
      Statement.listVariables_eq_listReferenced body h.2]
  | .procedure .., h => h.elim

theorem Statement.listVariables_eq_listReferenced : (ss : List Statement) →
    Statement.ListWellFormed ss → Statement.listVariables ss = Statement.listReferenced ss
  | [], _ => rfl
  | s :: ss, h => by
    rw [Statement.listVariables, Statement.listReferenced, s.variables_eq_referenced h.1,
      Statement.listVariables_eq_listReferenced ss h.2]

end

theorem Statement.listWellFormed_unmarked {ss : List Statement}
    (h : ∀ s ∈ ss, s.OuterWellFormed) : ListWellFormed (unmarked ss) := by
  induction ss using markedRec with
  | nil => trivial
  | marker q ss ih => exact ih (List.forall_mem_cons.1 h).2
  | statement s ss hs ih =>
    obtain ⟨hfirst, hrest⟩ := List.forall_mem_cons.1 h
    rw [unmarked_statement hs]
    refine ⟨?_, ih hrest⟩
    cases s with
    | procedure => cases hs
    | _ => exact hfirst

theorem Statement.outerWellFormed_marker {ss : List Statement} (h : ∀ s ∈ ss, s.OuterWellFormed)
    {q : Procedure} (hq : q ∈ declarations ss) : q.marker.OuterWellFormed := by
  obtain ⟨s, hs, hmarker⟩ := List.mem_filterMap.1 hq
  exact eq_marker hmarker ▸ h s hs

namespace Program

variable {source : String} {p : Program} {x : String}

/-- The body of a procedure of a source text has no markers and no names but proper ones. -/
theorem wellFormed_procedure (hp : Program.parse source = .ok p) {q : Procedure}
    (hq : q ∈ p.environment.procedures) : IsName q.name ∧ Statement.ListWellFormed q.body := by
  rw [procedures_of_parse hp] at hq
  have h := Statement.outerWellFormed_marker (wellFormedTree_of_parse hp).1 hq
  exact ⟨h.1, h.2.2⟩

theorem listWellFormed_of_parse (hp : Program.parse source = .ok p) :
    Statement.ListWellFormed (Statement.unmarked p.tree) :=
  Statement.listWellFormed_unmarked (wellFormedTree_of_parse hp).1

/-- The parser notes the names of the main program, and those in the body of a procedure that are
not the procedure's own. -/
theorem mem_declared_of_parse (hp : Program.parse source = .ok p) :
    x ∈ p.environment.declared ↔ x ∈ Statement.listReferenced p.tree ∨
      ∃ q ∈ p.environment.procedures, x ∈ Statement.listReferenced q.body ∧
        x ∉ q.name :: q.parameters := by
  have hmarker {q : Procedure} (hq : q ∈ Statement.declarations p.tree) :
      x ∈ q.marker.variables ↔ x ∈ Statement.listReferenced q.body ∧
        x ∉ q.name :: q.parameters := by
    rw [← procedures_of_parse hp] at hq
    rw [← Statement.listVariables_eq_listReferenced _ (wellFormed_procedure hp hq).2]
    simp [Procedure.marker, Statement.variables]
  rw [(parse_eq_ok hp).2, Environment.mem_declared_ofTree, Statement.mem_listVariables,
    Statement.listVariables_eq_listReferenced _ (listWellFormed_of_parse hp),
    Statement.listReferenced_unmarked, ← (parse_eq_ok hp).2, procedures_of_parse hp]
  exact or_congr_right (exists_congr fun q => and_congr_right hmarker)

/-- No word is there only because the parser has noted its name. -/
theorem mem_globalNames_of_parse (hp : Program.parse source = .ok p) :
    x ∈ p.globalNames ↔ x ∈ Statement.listReferenced p.tree ∨
      ∃ q ∈ p.environment.procedures, x ∈ p.outerNames q := by
  simp only [globalNames, mem_sortNames, List.mem_append, List.mem_filter, List.mem_flatMap,
    mem_declared_of_parse hp]
  constructor
  · rintro ((⟨hx | ⟨q, hq, hx, hown⟩, hframed⟩ | hx) | hx)
    · exact .inl hx
    · -- The name has been left out of the words if any procedure keeps it in its frame.
      have hlocal : x ∉ q.locals p.topLevelNames := by
        intro hx
        simp only [Bool.not_eq_true', List.contains_eq_mem, decide_eq_false_iff_not,
          List.mem_flatMap] at hframed
        exact hframed ⟨q, hq, hx⟩
      simp only [List.mem_cons, not_or] at hown
      exact .inr ⟨q, hq, List.mem_filter.2 ⟨hx, by simp [hown, hlocal]⟩⟩
    · exact .inl hx
    · exact .inr hx
  · rintro (hx | hx)
    · exact .inl (.inr hx)
    · exact .inr hx

/-- All names of a source text are proper. -/
theorem isName_of_mem_names (hp : Program.parse source = .ok p) (hx : x ∈ p.names) : IsName x := by
  have hmain {x : String} (hx : x ∈ Statement.listReferenced p.tree) : IsName x := by
    rw [← Statement.listReferenced_unmarked] at hx
    exact Statement.isName_of_mem_listReferenced _ (listWellFormed_of_parse hp) hx
  have hbody {q : Procedure} (hq : q ∈ p.environment.procedures) {x : String}
      (hx : x ∈ Statement.listReferenced q.body) : IsName x :=
    Statement.isName_of_mem_listReferenced _ (wellFormed_procedure hp hq).2 hx
  simp only [names, List.mem_append, List.mem_flatMap, List.mem_cons,
    mem_declared_of_parse hp] at hx
  obtain ((hx | ⟨q, hq, hx, -⟩) | hx) | ⟨q, hq, rfl | hx⟩ := hx
  · exact hmain hx
  · exact hbody hq hx
  · exact hmain hx
  · exact (wellFormed_procedure hp hq).1
  · exact hbody hq hx

end Program

/-! ## Names that the code uses -/

/-- An instruction of a piece without an obstacle uses a label. -/
def Code.Addresses (c : Code) (label : Label) : Prop :=
  c.obstacle = none → ∃ i, Line.instruction i ∈ c.lines ∧ label ∈ i.uses

namespace Code.Addresses

variable {a b : Code} {label : Label}

theorem left (h : a.Addresses label) : (a ++ b).Addresses label := by
  intro ho
  obtain ⟨ha, -⟩ := obstacle_append_eq_none.1 ho
  obtain ⟨i, hi, hl⟩ := h ha
  exact ⟨i, by rw [lines_append ha]; exact List.mem_append_left _ hi, hl⟩

theorem right (h : b.Addresses label) : (a ++ b).Addresses label := by
  intro ho
  obtain ⟨ha, hb⟩ := obstacle_append_eq_none.1 ho
  obtain ⟨i, hi, hl⟩ := h hb
  exact ⟨i, by rw [lines_append ha]; exact List.mem_append_right _ hi, hl⟩

theorem instruction {i : Instruction} (h : label ∈ i.uses) :
    (ofInstructions [i]).Addresses label :=
  fun _ => ⟨i, by rw [lines_ofInstructions]; exact List.mem_cons_self, h⟩

end Code.Addresses

variable {scope : Scope} {x : String} {label : Label}

mutual

theorem Expression.code_addresses (hl : scope.layout.locate x = .labelled label) :
    (e : Expression) → x ∈ e.variables → (e.code scope).Addresses label
  | .number _, hx => nomatch hx
  | .variable name, hx => by
    obtain rfl := List.mem_singleton.1 hx
    exact .instruction (Location.mem_uses.2 hl)
  | .binary left _ right, hx => by
    obtain hx | hx := List.mem_append.1 hx
    · exact (left.code_addresses hl hx).left.left.left.left
    · exact (right.code_addresses hl hx).right.left.left
  | .call _ arguments, hx => (Expression.argumentCode_addresses hl arguments hx).right.left.left

theorem Expression.argumentCode_addresses (hl : scope.layout.locate x = .labelled label) :
    (es : List Expression) → x ∈ Expression.listVariables es →
      (Expression.argumentCode scope es).Addresses label
  | [], hx => nomatch hx
  | e :: es, hx => by
    obtain hx | hx := List.mem_append.1 hx
    · exact (e.code_addresses hl hx).left.left
    · exact (Expression.argumentCode_addresses hl es hx).right

end

mutual

/-- A name that has a label is used under its label. -/
theorem Statement.code_addresses (hl : scope.layout.locate x = .labelled label) (first : Nat) :
    (s : Statement) → x ∈ s.referenced → (s.code scope first).Addresses label
  | .assign name value, hx => by
    obtain rfl | hx := List.mem_cons.1 hx
    · exact (Code.Addresses.instruction (Location.mem_uses.2 hl)).right
    · exact (value.code_addresses hl hx).left
  | .block body, hx => Statement.listCode_addresses hl first body hx
  | .branch condition onTrue onFalse, hx => by
    simp only [Statement.referenced, List.mem_append] at hx
    obtain (hx | hx) | hx := hx
    · exact (condition.code_addresses hl hx).left.right.left.left
    · exact (Statement.listCode_addresses hl (first + 1) onTrue hx).right.left
    · have hne : onFalse.isEmpty = false := by
        cases onFalse with
        | nil => cases hx
        | cons s ss => rfl
      rw [Statement.code, hne]
      exact (Statement.listCode_addresses hl _ onFalse hx).right.left.right
  | .loop condition body, hx => by
    obtain hx | hx := List.mem_append.1 hx
    · exact (condition.code_addresses hl hx).left.right.left.left.left
    · exact (Statement.listCode_addresses hl (first + 2) body hx).right.left.left
  | .read _, _ => nofun
  | .display value, hx => (value.code_addresses hl hx).left
  | .return value, hx => value.code_addresses hl hx
  | .procedure .., hx => nomatch hx

theorem Statement.listCode_addresses (hl : scope.layout.locate x = .labelled label) (first : Nat) :
    (ss : List Statement) → x ∈ Statement.listReferenced ss →
      (Statement.listCode scope first ss).Addresses label
  | [], hx => nomatch hx
  | s :: ss, hx => by
    obtain hx | hx := List.mem_append.1 hx
    · exact (s.code_addresses hl first hx).left
    · exact (Statement.listCode_addresses hl (first + s.labels) ss hx).right

end

theorem routines_address {environment : Environment} {topLevel : List String} {first : Nat}
    {qs : List Procedure} {q : Procedure} (hq : q ∈ qs) (hx : x ∈ Statement.listReferenced q.body)
    (ho : Layout.offset? q (q.locals topLevel) x = none) :
    (routines environment topLevel first qs).Addresses (.variable x) := by
  induction qs generalizing first with
  | nil => cases hq
  | cons q' qs ih =>
    obtain rfl | hq := List.mem_cons.1 hq
    · have hl : (Layout.frame q (q.locals topLevel)).locate x = .labelled (.variable x) := by
        simp only [Layout.locate, ho]
      let scope : Scope := ⟨environment, .frame q (q.locals topLevel)⟩
      have hbody : (Statement.listCode scope first q.body).Addresses (.variable x) :=
        Statement.listCode_addresses hl first q.body hx
      exact hbody.right.left.left
    · exact (ih hq).right

namespace Program

variable {source : String} {p : Program} {first : Nat}

/-- The main program uses its names, and a routine uses the names that have no place in its
frame. -/
theorem code_addresses (hx : x ∈ Statement.listReferenced p.tree ∨
    ∃ q ∈ p.environment.procedures, x ∈ p.outerNames q) :
    (p.code first).Addresses (.variable x) := by
  rw [code_eq]
  obtain hx | ⟨q, hq, hx⟩ := hx
  · have hmain : (Statement.listCode ⟨p.environment, .main⟩ first p.tree).Addresses
        (.variable x) := Statement.listCode_addresses rfl first p.tree hx
    exact hmain.right.left.left.right
  · obtain ⟨hx, hout⟩ := List.mem_filter.1 hx
    simp only [Bool.and_eq_true, Bool.not_eq_true', List.contains_eq_mem, decide_eq_true_eq,
      decide_eq_false_iff_not] at hout
    have ho := Layout.offset?_eq_none_iff.2 ⟨hout.2, hout.1.2, hout.1.1⟩
    exact (routines_address hq hx ho).left.right.right

/-- There is a word for a name if and only if an instruction uses its label. -/
theorem mem_globalNames_iff (hp : Program.parse source = .ok p)
    (ho : (p.code first).obstacle = none) : x ∈ p.globalNames ↔
      ∃ i, Line.instruction i ∈ (p.code first).lines ∧ Label.variable x ∈ i.uses := by
  constructor
  · intro hx
    exact code_addresses ((mem_globalNames_of_parse hp).1 hx) ho
  · rintro ⟨i, hi, hu⟩
    obtain hdata | hcode := uses_code hi hu
    · obtain h | h | ⟨y, hy, h⟩ := hdata <;> cases h
      exact hy
    · obtain h | h | ⟨q, -, h⟩ | ⟨n, h, -⟩ := hcode <;> cases h

end Program

/-! ## Reading words and operands -/

/-- The name of which a line defines the word. -/
def storedName? (line : String) : Option String :=
  ((line.toList.dropPrefix? "var_".toList).bind fun cs =>
    cs.dropSuffix? ": .word 0".toList).map String.ofList

/-- The operands of an instruction: the words behind the first one. The first word of a directive
starts with a dot, and where a label is defined there is a colon. -/
def operandsOf (line : String) : List String :=
  if line.toList.head? = some '.' ∨ ':' ∈ line.toList then [] else (wordsOf line).tail

/-- The bytes of a name. -/
def bytesOf (name : String) : List UInt8 := name.toUTF8.data.toList

theorem storedName?_eq_some {line x : String} :
    storedName? line = some x ↔ line = "var_" ++ x ++ ": .word 0" := by
  simp only [storedName?, Option.map_eq_some_iff, Option.bind_eq_some_iff,
    List.dropPrefix?_eq_some_iff, List.dropSuffix?_eq_some_iff, beq_iff_eq]
  constructor
  · rintro ⟨cs, ⟨ds, ⟨_, hline, rfl⟩, _, rfl, rfl⟩, rfl⟩
    refine String.toList_inj.1 (hline.trans ?_)
    simp
  · rintro rfl
    exact ⟨x.toList, ⟨_, ⟨_, by simp, rfl⟩, _, rfl, rfl⟩, String.ofList_toList⟩

/-- A text of characters of one byte. -/
theorem bytesOf_ofList {cs : List Char} (h : ∀ c ∈ cs, c.toNat < 128) :
    bytesOf (String.ofList cs) = cs.map fun c => UInt8.ofNat c.toNat := by
  rw [bytesOf, String.toUTF8, String.toByteArray_ofList, List.utf8Encode,
    List.toList_data_toByteArray]
  induction cs with
  | nil => rfl
  | cons c cs ih =>
    obtain ⟨hc, hcs⟩ := List.forall_mem_cons.1 h
    have hchar : String.utf8EncodeChar c = [UInt8.ofNat c.toNat] := by
      simp [String.utf8EncodeChar]
      omega
    rw [List.flatMap_cons, hchar, ih hcs]
    rfl

/-- Texts of characters of one byte are ordered as their bytes are. -/
theorem bytesOf_lt {as bs : List Char} (ha : ∀ c ∈ as, c.toNat < 128)
    (hb : ∀ c ∈ bs, c.toNat < 128) (h : as < bs) :
    bytesOf (String.ofList as) < bytesOf (String.ofList bs) := by
  rw [bytesOf_ofList ha, bytesOf_ofList hb]
  induction as generalizing bs with
  | nil =>
    cases bs with
    | nil => exact absurd h (List.lt_irrefl _)
    | cons b bs => exact List.nil_lt_cons _ _
  | cons a as ih =>
    cases bs with
    | nil => exact absurd h (List.not_lt_nil _)
    | cons b bs =>
      obtain ⟨ha', has⟩ := List.forall_mem_cons.1 ha
      obtain ⟨hb', hbs⟩ := List.forall_mem_cons.1 hb
      rw [List.map_cons, List.map_cons, List.cons_lt_cons_iff]
      obtain hab | ⟨rfl, hrest⟩ := List.cons_lt_cons_iff.1 h
      · have hnat : a.toNat < b.toNat := hab
        refine .inl (UInt8.lt_iff_toNat_lt.2 ?_)
        rw [UInt8.toNat_ofNat', UInt8.toNat_ofNat']
        omega
      · exact .inr ⟨rfl, ih has hbs hrest⟩

theorem IsName.bytes_lt {x y : String} (hx : IsName x) (hy : IsName y) (h : x < y) :
    bytesOf x < bytesOf y := by
  have hascii {z : String} (hz : IsName z) : ∀ c ∈ z.toList, c.toNat < 128 := by
    intro c hc
    have hrange := range_of_isWordPart (isWordPart_of_isIdentifier hz.1 c hc)
    omega
  have hlist : x.toList < y.toList := h
  have hlt := bytesOf_lt (hascii hx) (hascii hy) hlist
  rwa [String.ofList_toList, String.ofList_toList] at hlt

/-! ## What is read from the code -/

theorem storedName?_word (x : String) : storedName? (Line.word (.variable x) 0).text = some x := by
  refine storedName?_eq_some.2 (String.toList_inj.1 ?_)
  simp [Line.text, Label.text, toString, decimal]

/-- Where a label of the code is defined, no word is. -/
theorem storedName?_define (label : Label) : storedName? (Line.define label).text = none := by
  refine Option.eq_none_iff_forall_ne_some.2 fun x hx => ?_
  have hline := congrArg (fun line => line.toList.getLast?) (storedName?_eq_some.1 hx)
  simp [Line.text_define, List.getLast?_append, List.getLast?_cons] at hline

theorem storedName?_instruction {i : Instruction} (h : ∀ label ∈ i.uses, label.Plain) :
    storedName? (Line.instruction i).text = none := by
  refine Option.eq_none_iff_forall_ne_some.2 fun x hx => ?_
  have hcolon : ':' ∈ (Line.instruction i).text.toList := by
    rw [storedName?_eq_some.1 hx]
    simp
  rw [Line.text_instruction] at hcolon
  exact (mem_spaced (Instruction.isWord_words h) _ hcolon).1 rfl

/-- The words of the data section, in the text of a program. -/
theorem Program.filterMap_storedName? {p : Program} {first : Nat}
    (hplain : ∀ line ∈ (p.code first).lines, line.Plain) :
    ((p.code first).lines.map Line.text).filterMap storedName? = p.globalNames := by
  have hcode : ∀ line ∈ (p.textCode first).lines, storedName? line.text = none := by
    intro line hline
    have hmem : line ∈ (p.code first).lines := by
      rw [lines_code]
      exact List.mem_append_right _ (List.mem_cons_of_mem _ (List.mem_cons_of_mem _ hline))
    obtain ⟨label, rfl⟩ | ⟨i, rfl, -⟩ := p.textCode_uses first line hline
    · exact storedName?_define label
    · exact storedName?_instruction (hplain _ hmem).used
  have htext : ((p.textCode first).lines.map Line.text).filterMap storedName? = [] :=
    List.filterMap_eq_nil_iff.2 (List.forall_mem_map.2 hcode)
  have hwords : ((p.globalNames.map fun x => Line.word (.variable x) 0).map Line.text).filterMap
      storedName? = p.globalNames := by
    rw [List.map_map, List.filterMap_map]
    exact (List.filterMap_congr fun x _ => storedName?_word x).trans List.filterMap_some
  have hdata : ([Line.dataSection, .string .newline "\n",
      .string .divisionMessage "Division by zero\n"].map Line.text).filterMap storedName? = [] := by
    decide
  have hdirectives :
      ([Line.textSection, .global .main].map Line.text).filterMap storedName? = [] := by
    decide
  have hlines : (p.code first).lines = [.dataSection, .string .newline "\n",
      .string .divisionMessage "Division by zero\n"] ++
      (p.globalNames.map fun x => .word (.variable x) 0) ++
      ([.textSection, .global .main] ++ (p.textCode first).lines) := lines_code p first
  rw [hlines, List.map_append, List.map_append, List.map_append, List.filterMap_append,
    List.filterMap_append, List.filterMap_append, hdata, hwords, hdirectives, htext,
    List.append_nil, List.append_nil, List.nil_append]

section

variable {x : String}

theorem Label.text_variable (x : String) : (Label.variable x).text = "var_" ++ x := by
  simp [text, toString]

/-- What is no label of a variable is not the label of a certain one. -/
theorem Label.text_variable_ne {w : String} (h : isVariableLabel w = false) :
    (Label.variable x).text ≠ w := by
  rintro rfl
  rw [text_variable] at h
  simp [isVariableLabel, List.isPrefixOf] at h

theorem isVariableLabel_number {w : String} (h : ∀ c ∈ w.toList, c = '-' ∨ c.isDigit = true) :
    isVariableLabel w = false := by
  rw [isVariableLabel]
  cases hw : w.toList with
  | nil => rfl
  | cons c cs =>
    have hc : 'v' ≠ c := by
      rintro rfl
      have hv := h 'v' (by rw [hw]; exact List.mem_cons_self)
      revert hv
      decide
    simp [List.isPrefixOf, hc]

theorem Location.text_eq_variable {location : Location} :
    (Label.variable x).text = location.text ↔ location = .labelled (.variable x) := by
  cases location with
  | relative offset base =>
    exact iff_of_false (Label.text_variable_ne (isVariableLabel_relative offset base)) nofun
  | labelled label =>
    rw [Location.text, Label.text_injective.eq_iff, Location.labelled.injEq, eq_comm]

/-- The operands of an instruction that are labels of variables. -/
theorem Instruction.mem_tail_words {i : Instruction} :
    "var_" ++ x ∈ i.words.tail ↔ Label.variable x ∈ i.uses := by
  have hregister (r : Register) : (Label.variable x).text ≠ r.text :=
    Label.text_variable_ne (isVariableLabel_register r)
  have hdecimal (n : Int) : (Label.variable x).text ≠ String.ofList (decimal n) :=
    Label.text_variable_ne (isVariableLabel_number fun _ hc => mem_decimal (by simpa using hc))
  have hsp : (Label.variable x).text ≠ "$sp" := Label.text_variable_ne (by decide)
  have hnat (n : Nat) : (Label.variable x).text ≠ n.repr :=
    Label.text_variable_ne (isVariableLabel_number fun c hc => by
      have hdigits : c ∈ Nat.toDigits 10 n := by simpa using hc
      exact .inr (Nat.isDigit_of_mem_toDigits (by decide) (by decide) hdigits))
  rw [← Label.text_variable]
  cases i <;> simp [words, uses, hregister, hdecimal, hsp, hnat, Location.text_eq_variable,
    Location.mem_uses, Label.text_injective.eq_iff]

theorem Instruction.operandsOf_text {i : Instruction} (h : ∀ label ∈ i.uses, label.Plain) :
    operandsOf i.text = i.words.tail := by
  have hwords := isWord_words h
  rw [operandsOf, text_eq, wordsOf_spaced hwords, if_neg]
  rintro (hhead | hcolon)
  · cases i <;> simp [words, spaced, withCommas] at hhead
    case arithmetic op _ _ _ => cases op <;> simp [Arithmetic.text] at hhead
  · exact (mem_spaced hwords _ hcolon).1 rfl

/-- Only instructions have operands. -/
theorem Line.mem_operandsOf {line : Line} (h : line.Plain) : "var_" ++ x ∈ operandsOf line.text ↔
    ∃ i, line = .instruction i ∧ Label.variable x ∈ i.uses := by
  have hnone (hline : line.text.toList.head? = some '.' ∨ ':' ∈ line.text.toList)
      (hi : ∀ i, line = .instruction i → False) : "var_" ++ x ∈ operandsOf line.text ↔
      ∃ i, line = .instruction i ∧ Label.variable x ∈ i.uses := by
    rw [operandsOf, if_pos hline]
    exact iff_of_false List.not_mem_nil fun ⟨i, h, _⟩ => hi i h
  cases line with
  | dataSection => exact hnone (.inl (by decide)) fun _ h => nomatch h
  | textSection => exact hnone (.inl (by decide)) fun _ h => nomatch h
  | global label => exact hnone (.inl (by rw [text_global]; simp)) fun _ h => nomatch h
  | string label content => exact hnone (.inr (by rw [text_string]; simp)) fun _ h => nomatch h
  | word label value => exact hnone (.inr (by rw [text_word]; simp)) fun _ h => nomatch h
  | define label => exact hnone (.inr (by rw [text_define]; simp)) fun _ h => nomatch h
  | instruction i =>
    rw [Line.text, Instruction.operandsOf_text h.used, Instruction.mem_tail_words]
    simp

end

/-! ## What was written -/

/-- The lines that define words stand in the order of the bytes of their names, one for each name,
and there is one for a name if and only if its label is an operand of some instruction. -/
structure ExactData (lines : List String) : Prop where
  sorted : (lines.filterMap storedName?).Pairwise fun x y => bytesOf x < bytesOf y
  used : ∀ x, "var_" ++ x ++ ": .word 0" ∈ lines ↔ ∃ line ∈ lines, "var_" ++ x ∈ operandsOf line

/-- The data section of a source text that can be compiled has the words that are used and no
other. -/
theorem data_section_exact {source : String} {p : Program} {e e' : Emitter}
    (hp : Program.parse source = .ok p) (h : e.compile p = (.ok (), e')) :
    ∃ text, e'.sink.written = e.sink.written ++ text.toUTF8 ∧ ExactData (linesOf text) := by
  obtain ⟨ho, hwritten⟩ := Emitter.compile_eq_ok h
  have hplain := Program.plain_code (fun x hx => (Program.isName_of_mem_names hp hx).1)
    (Program.procedures_nodup hp) e.nextLabel
  have hstored := Program.filterMap_storedName? hplain
  refine ⟨_, hwritten, ?_, fun x => ?_⟩
  · rw [linesOf_listing hplain, hstored]
    refine (sortNames_sorted _).imp_of_mem fun hx hy hlt => ?_
    exact IsName.bytes_lt (Program.isName_of_mem_names hp (Program.globalNames_subset_names hx))
      (Program.isName_of_mem_names hp (Program.globalNames_subset_names hy)) hlt
  · have hword : "var_" ++ x ++ ": .word 0" ∈ (p.code e.nextLabel).lines.map Line.text ↔
        x ∈ p.globalNames := by
      rw [← hstored, List.mem_filterMap]
      simp only [storedName?_eq_some, exists_eq_right]
    have hoperand : (∃ line ∈ (p.code e.nextLabel).lines.map Line.text,
        "var_" ++ x ∈ operandsOf line) ↔
        ∃ i, Line.instruction i ∈ (p.code e.nextLabel).lines ∧ Label.variable x ∈ i.uses := by
      constructor
      · rintro ⟨_, htext, hx⟩
        obtain ⟨line, hline, rfl⟩ := List.mem_map.1 htext
        obtain ⟨i, rfl, hi⟩ := (Line.mem_operandsOf (hplain line hline)).1 hx
        exact ⟨i, hline, hi⟩
      · rintro ⟨i, hline, hi⟩
        exact ⟨_, List.mem_map_of_mem hline,
          (Line.mem_operandsOf (hplain _ hline)).2 ⟨i, rfl, hi⟩⟩
    rw [linesOf_listing hplain, hword, hoperand, Program.mem_globalNames_iff hp ho]

/-- The name `v` is a local of a procedure, a parameter of another one, and has a word because of a
third one. -/
def sharedNameText : String :=
  "procedure f() assign v = 1 end procedure g(v) display v end " ++
    "procedure h() return v + w end assign z = h() display g(z)"

def sharedNameTree : List Statement :=
  [.procedure "f" [] [.assign "v" (.number 1)], .procedure "g" ["v"] [.display (.variable "v")],
    .procedure "h" [] [.return (.binary (.variable "v") .add (.variable "w"))],
    .assign "z" (.call "h" []), .display (.call "g" [.variable "z"])]

def sharedNameProgram : Program := ⟨sharedNameTree, .ofTree sharedNameTree⟩

theorem data_section_exact_sharedName : ∃ e text,
    Program.parse sharedNameText = .ok sharedNameProgram ∧
    ({} : Emitter).compile sharedNameProgram = (.ok (), e) ∧
    e.sink.written = text.toUTF8 ∧ ExactData (linesOf text) ∧
    sharedNameProgram.globalNames = ["v", "w", "z"] := by
  have hp : Program.parse sharedNameText = .ok sharedNameProgram := by decide +kernel
  obtain ⟨e, he⟩ : ∃ e, ({} : Emitter).compile sharedNameProgram = (.ok (), e) :=
    Emitter.compile_of_unlimited rfl (by decide)
  obtain ⟨text, hwritten, hexact⟩ := data_section_exact hp he
  exact ⟨e, text, hp, he, hwritten.trans ByteArray.empty_append, hexact, by decide⟩

end Blockwork
