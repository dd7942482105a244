import Blockwork.Proofs.LineBreaks
import Blockwork.Proofs.Recovery

/-!
# What a lexer reports of two texts

A client calls a lexer as long as there is more to report, and gets tokens, faults and at last the
end of input. Of two texts with a newline between them it gets what it gets of each, wherever the
first one breaks off: no lexeme, comment or fault reaches across a newline, and behind the newline
the lexer starts anew but for its place.

* `Lexer.report`: all that a lexer reports.
* `Lexer.report_behind`: it depends on where the text starts as the places of its outcomes do.
* `Lexer.report_extended`: the report of a text that goes on behind a newline.
* `report_lines`: the report of two texts with a newline between them.
-/

namespace Blockwork

namespace Lexer

/-- What a lexer reports, call by call, until it has reported the end of input: tokens and faults,
and then the end of input. -/
def report (l : Lexer) : List (Except LexError Token) :=
  if _h : l.ended = false then l.next.1 :: l.next.2.report else []
termination_by if l.ended then 0 else l.rest.length + 1
decreasing_by
  rw [_h]
  cases hnext : l.next.2.ended with
  | true => exact Nat.succ_pos _
  | false => exact Nat.succ_lt_succ (length_next_lt hnext)

variable {l : Lexer}

theorem report_of_running (h : l.ended = false) : l.report = l.next.1 :: l.next.2.report := by
  rw [report, dif_pos h]

theorem report_of_ended (h : l.ended = true) : l.report = [] := by
  rw [report, dif_neg (by simp [h])]

/-- Lexers that find the same next report the same. -/
theorem report_congr {l' : Lexer} (h : l.ended = false) (h' : l'.ended = false)
    (hnext : l.next = l'.next) : l.report = l'.report := by
  rw [report_of_running h, report_of_running h', hnext]

/-- Behind the last gap there is only the end of input to report. -/
theorem report_at_end (hended : l.ended = false) {gap : List Char}
    (h : splitGap false l.rest = (gap, [])) :
    let stop := l.position.after l.rest
    l.report = [.ok ⟨.endOfInput, stop.spanTo stop⟩] := by
  have hgap : gap = l.rest := by
    rw [← splitGap_append false l.rest, h, List.append_nil]
  rw [report_of_running hended, next_at_end h, report_of_ended rfl, hgap]

/-- A report depends on its place only as the places of its outcomes do. -/
theorem report_behind (lead : Lead) (l : Lexer) :
    (l.behind lead).report = l.report.map (outcomeBehind lead) := by
  fun_induction report l with
  | case1 l hended ih =>
    rw [report_of_running (l := l.behind lead) hended, next_behind, ih, List.map_cons]
  | case2 l hended =>
    rw [Bool.not_eq_false] at hended
    rw [report_of_ended (l := l.behind lead) hended, List.map_nil]

/-- A call that finds a lexeme: it is no end of input, and the end of the text stays where it is. -/
theorem next_inside {gap : List Char} {c : Char} {cs : List Char}
    (h : splitGap false l.rest = (gap, c :: cs)) :
    (∀ t, l.next.1 = .ok t → t.kind ≠ .endOfInput) ∧ l.next.2.ended = l.ended ∧
      l.next.2.position.after l.next.2.rest = l.position.after l.rest := by
  have hfits := next_fits h
  have hrest : l.rest = gap ++ ((lexeme c cs).text ++ (lexeme c cs).rest) := by
    rw [lexeme_append, ← splitGap_append false l.rest, h]
  refine ⟨fun t ht => ?_, ?_, ?_⟩
  · rw [ht] at hfits
    exact hfits.1
  · rw [next_at_lexeme h]
  · rw [next_at_lexeme h, hrest, Position.after_append, Position.after_append]

/-- The report of a text that goes on behind a newline: up to the newline it is as if nothing
followed, and then it is the report of what follows. -/
theorem report_extended (hended : l.ended = false) (bs : List Char) :
    let stop := l.position.after l.rest
    ∃ found, (∀ t, .ok t ∈ found → t.kind ≠ .endOfInput) ∧
      l.report = found ++ [.ok ⟨.endOfInput, stop.spanTo stop⟩] ∧
      (l.extended bs).report = found ++ (l.beyond bs).report := by
  fun_induction report l with
  | case1 l _ ih =>
    have hreport := report_of_running hended
    cases hsplit : splitGap false l.rest with
    | mk gap rest =>
      cases rest with
      | nil =>
        refine ⟨[], by simp, hreport.symm.trans (report_at_end hended hsplit), ?_⟩
        exact report_congr hended hended (next_beyond bs hsplit)
      | cons c cs =>
        obtain ⟨hkind, hended', hstop⟩ := next_inside hsplit
        obtain ⟨hnext, hbeyond⟩ := next_extended bs hsplit
        obtain ⟨found, hfound, hreport, hextended⟩ := ih (hended'.trans hended)
        rw [hstop] at hreport
        rw [hbeyond] at hextended
        refine ⟨l.next.1 :: found, fun t ht => ?_, ?_, ?_⟩
        · rcases List.mem_cons.1 ht with ht | ht
          · exact hkind t ht.symm
          · exact hfound t ht
        · rw [hreport, List.cons_append]
        · rw [report_of_running (l := l.extended bs) hended, hnext, hextended, List.cons_append]
  | case2 l h => exact absurd hended h

end Lexer

/-- The report of two texts with a newline between them is that of the first one without its end of
input, and then that of the second one, whose places are those behind the first text and the
newline: bytes and lines are counted on, and columns, kinds and faults are what they are. -/
theorem report_lines (a b : String) :
    let lead : Lead := ⟨a.utf8ByteSize + 1, 1 + a.toList.count '\n'⟩
    ∃ found, (∀ t, .ok t ∈ found → t.kind ≠ .endOfInput) ∧
      (Lexer.ofString a).report = found ++ [.ok (endToken a)] ∧
      (Lexer.ofString (a ++ "\n" ++ b)).report =
        found ++ (Lexer.ofString b).report.map (outcomeBehind lead) := by
  intro lead
  have hlead : Lead.ofText (a.toList ++ ['\n']) = lead := by
    have hsize : byteSize ['\n'] = 1 := rfl
    simp [Lead.ofText, lead, byteSize_toList, hsize, Nat.add_comm, -byteSize_cons]
  obtain ⟨found, hfound, hreport, hextended⟩ :=
    Lexer.report_extended (l := .ofString a) rfl b.toList
  refine ⟨found, hfound, hreport, ?_⟩
  rw [Lexer.ofString_lines, hextended, Lexer.beyond_ofString, hlead, Lexer.report_behind]

end Blockwork
