import Blockwork.Proofs.Truncation

/-!
# Assembly for a full sink

A sink with a limit cuts assembly off at a byte, which can be anywhere in a line, before its newline
or right behind it. The emitter stops there, with the lines counted that the sink has in full, and
it can write nothing more.

* `linesWithin`: how many lines end within a number of bytes; `linesWithin_cons` takes them one by
  one.
* `Sink.write_filled`, `Emitter.emit_filled`: a sink without room stays as it is.
* `Emitter.CutOff`: what an emitter is like that a limit has stopped.
* `Emitter.play_limited`: the steps of a piece of code with a limit.
* `full_sink_truncates_assembly`: compiling a program with a limit, by compiling it with none.
-/

namespace Blockwork

/-! ## Lines within a limit -/

/-- How many of some lines lie, each with its newline, within a number of bytes. -/
def linesWithin (limit : Nat) (lines : List Line) : Nat :=
  (List.range lines.length).countP fun i => (listing (lines.take (i + 1))).toUTF8.size ≤ limit

theorem size_toUTF8_append (a b : String) :
    (a ++ b).toUTF8.size = a.toUTF8.size + b.toUTF8.size := by
  simp only [String.toUTF8, String.toByteArray_append, ByteArray.size_append]

theorem size_listing_cons (line : Line) (lines : List Line) :
    (listing (line :: lines)).toUTF8.size =
      (line.text ++ "\n").toUTF8.size + (listing lines).toUTF8.size :=
  size_toUTF8_append (line.text ++ "\n") (listing lines)

/-- Lines behind one that does not fit do not fit either. -/
theorem linesWithin_cons (limit : Nat) (line : Line) (lines : List Line) :
    linesWithin limit (line :: lines) =
      if (line.text ++ "\n").toUTF8.size ≤ limit then
        linesWithin (limit - (line.text ++ "\n").toUTF8.size) lines + 1
      else 0 := by
  have hempty : (listing []).toUTF8.size = 0 := rfl
  simp only [linesWithin, List.length_cons, List.range_succ_eq_map, List.countP_cons,
    List.countP_map, Function.comp_def, Nat.succ_eq_add_one, List.take_succ_cons,
    size_listing_cons, List.take_zero, hempty, Nat.add_zero]
  by_cases hfits : (line.text ++ "\n").toUTF8.size ≤ limit
  · rw [if_pos hfits, if_pos (decide_eq_true hfits)]
    congr 2
    funext i
    exact decide_eq_decide.2 ⟨by omega, by omega⟩
  · rw [if_neg hfits, if_neg (by simpa using hfits), Nat.add_zero, List.countP_eq_zero]
    intro i _
    rw [decide_eq_true_eq]
    omega

/-! ## Sinks without room -/

theorem size_line_pos (text : String) : 0 < (text ++ "\n").toUTF8.size := by
  have hnewline : ("\n" : String).toUTF8.size = 1 := rfl
  rw [size_toUTF8_append, hnewline]
  exact Nat.succ_pos _

/-- A text with a byte in it does not go into a sink without room, not even in part. -/
theorem Sink.write_filled {s : Sink} (h : s.limit = some s.written.size) {text : String}
    (htext : 0 < text.toUTF8.size) : s.write text = (.error s.overflow, s) := by
  have hroom : s.room text.toUTF8.size = 0 := by
    rw [room, h]
    simp
  simp only [write, hroom]
  rw [if_neg (Nat.ne_of_lt htext), ByteArray.extract_same, ByteArray.append_empty]

namespace Emitter

theorem emit_filled {e : Emitter} (h : e.sink.limit = some e.sink.written.size) (line : String) :
    e.emit line = (.error e.sink.overflow, e) := by
  rw [emit, Sink.write_filled h (size_line_pos line)]

/-! ## Emitters with a limit -/

/-- The emitter with a sink that takes a number of bytes in all. -/
def limited (limit : Nat) (e : Emitter) : Emitter := { e with sink.limit := some limit }

/-- The emitter after a line that there was room for. -/
def wrote (e : Emitter) (line : String) : Emitter :=
  { e with sink.written := e.sink.written ++ (line ++ "\n").toUTF8, lines := e.lines + 1 }

/-- A limit has stopped the emitter in the middle of a text: the sink has as much of the text as
there is room for, and a number of lines is counted. -/
structure CutOff (overflow : IoError) (limit : Nat) (text : ByteArray) (lines : Nat)
    (e : Emitter) : Prop where
  long : limit < text.size
  bound : e.sink.limit = some limit
  overflow : e.sink.overflow = overflow
  written : e.sink.written = text.extract 0 limit
  lines : e.lines = lines

section

variable {e : Emitter} {overflow : IoError} {limit lines : Nat} {text : ByteArray} {line : String}

/-- There is no room for another line. -/
theorem CutOff.emit (h : CutOff overflow limit text lines e) (line : String) :
    e.emit line = (.error overflow, e) := by
  have hlong := h.long
  have hfilled : e.sink.limit = some e.sink.written.size := by
    rw [h.bound, h.written, ByteArray.size_extract]
    congr 1
    omega
  rw [emit_filled hfilled, h.overflow]

/-- More text behind the limit makes no difference. -/
theorem CutOff.append (h : CutOff overflow limit text lines e) (more : ByteArray) :
    CutOff overflow limit (text ++ more) lines e where
  long := by
    rw [ByteArray.size_append]
    exact Nat.lt_add_right _ h.long
  bound := h.bound
  overflow := h.overflow
  written := by rw [h.written, extract_append_of_ge (Nat.le_of_lt h.long)]
  lines := h.lines

theorem emit_of_unlimited (h : e.sink.limit = none) (line : String) :
    e.emit line = (.ok (), e.wrote line) := by
  rw [emit, Sink.write_of_unlimited h]
  rfl

/-- Up to the limit, which what was written before is within, a line is written as without it. -/
theorem emit_within (h : e.sink.written.size ≤ limit)
    (hfits : (e.wrote line).sink.written.size ≤ limit) :
    (e.limited limit).emit line = (.ok (), (e.wrote line).limited limit) := by
  have hsink : (e.limited limit).sink = { e.sink with limit := some limit } := rfl
  rw [emit, hsink, Sink.write_limited h]
  rw [wrote] at hfits
  rw [if_pos hfits]
  rfl

/-- The first line that goes beyond the limit is written in part and not counted. -/
theorem emit_beyond (h : e.sink.written.size ≤ limit)
    (hlong : limit < (e.wrote line).sink.written.size) : ∃ e',
    (e.limited limit).emit line = (.error e.sink.overflow, e') ∧
      CutOff e.sink.overflow limit (e.wrote line).sink.written e.lines e' := by
  have hsink : (e.limited limit).sink = { e.sink with limit := some limit } := rfl
  have hbeyond : ¬(e.sink.written ++ (line ++ "\n").toUTF8).size ≤ limit := Nat.not_le.2 hlong
  rw [emit, hsink, Sink.write_limited h, if_neg hbeyond]
  exact ⟨_, rfl, hlong, rfl, rfl, rfl, rfl⟩

end

theorem lines_of_play {items : List Code.Item} {e e' : Emitter}
    (h : e.play items = (.ok (), e')) : e'.lines = e.lines + (Code.lines ⟨items, none⟩).length := by
  induction items generalizing e with
  | nil => cases h; rfl
  | cons item items ih =>
    cases item with
    | mint => exact ih (e := e.label.2) h
    | line line =>
      simp only [play, emit] at h
      split at h
      next e₁ he =>
        split at he
        · cases he
          rw [ih h]
          simp only [Code.lines, List.filterMap_cons, List.length_cons]
          omega
        · cases he
      next => cases h

/-- The steps of a piece of code with a limit, which what was written before is within: all of them
are taken if the whole text is within it too, and otherwise the emitter is cut off. -/
theorem play_limited {e : Emitter} {limit : Nat} (hfree : e.sink.limit = none)
    (h : e.sink.written.size ≤ limit) (items : List Code.Item) :
    let lines := Code.lines ⟨items, none⟩
    let text := e.sink.written ++ (listing lines).toUTF8
    if text.size ≤ limit then
      (e.limited limit).play items = (.ok (), (e.play items).2.limited limit)
    else ∃ e', (e.limited limit).play items = (.error e.sink.overflow, e') ∧
      CutOff e.sink.overflow limit text
        (e.lines + linesWithin (limit - e.sink.written.size) lines) e' := by
  intro lines text
  induction items generalizing e with
  | nil =>
    have htext : text = e.sink.written := by simp [text, lines, Code.lines, listing, String.toUTF8]
    rw [if_pos (htext ▸ h)]
    rfl
  | cons item items ih =>
    cases item with
    | mint => exact ih (e := e.label.2) hfree h
    | line line =>
      have hlines : lines = line :: Code.lines ⟨items, none⟩ := rfl
      have htext : text = (e.wrote line.text).sink.written ++
          (listing (Code.lines ⟨items, none⟩)).toUTF8 := by
        simp only [text, hlines, wrote, listing, String.toUTF8, String.toByteArray_append,
          ByteArray.append_assoc]
      have hsize : (e.wrote line.text).sink.written.size =
        e.sink.written.size + (line.text ++ "\n").toUTF8.size := ByteArray.size_append
      rw [play, play, emit_of_unlimited hfree, htext]
      by_cases hfits : (e.wrote line.text).sink.written.size ≤ limit
      · -- The line is written and counted.
        have hcount : e.lines + linesWithin (limit - e.sink.written.size) lines =
            (e.wrote line.text).lines +
              linesWithin (limit - (e.wrote line.text).sink.written.size)
                (Code.lines ⟨items, none⟩) := by
          have hwrote : (e.wrote line.text).lines = e.lines + 1 := rfl
          rw [hlines, linesWithin_cons, if_pos (by omega), hsize, Nat.sub_add_eq, hwrote]
          omega
        rw [emit_within h hfits, hcount]
        exact ih (e := e.wrote line.text) hfree hfits
      · -- The line is the first that does not fit.
        obtain ⟨e', hemit, hcut⟩ := emit_beyond h (Nat.lt_of_not_le hfits)
        have hwhole := hcut.append (listing (Code.lines ⟨items, none⟩)).toUTF8
        rw [if_neg (Nat.not_le.2 hwhole.long), hemit, hlines, linesWithin_cons,
          if_neg (by omega)]
        exact ⟨e', rfl, hwhole⟩

/-- Without a limit all lines are written and counted, also if an obstacle follows. -/
theorem compile_unlimited {e : Emitter} (h : e.sink.limit = none) (p : Program) :
    (e.compile p).2 = (e.play (p.code e.nextLabel).items).2 ∧
      (e.compile p).2.sink.written =
        e.sink.written ++ (listing (p.code e.nextLabel).lines).toUTF8 ∧
      (e.compile p).2.lines = e.lines + (p.code e.nextLabel).lines.length := by
  have hplay : e.play (p.code e.nextLabel).items =
      (.ok (), (e.play (p.code e.nextLabel).items).2) :=
    Prod.ext (play_of_unlimited _ h) rfl
  have hcompile : (e.compile p).2 = (e.play (p.code e.nextLabel).items).2 := by
    rw [compile, assemble, hplay]
    cases (p.code e.nextLabel).obstacle <;> rfl
  rw [hcompile]
  exact ⟨rfl, written_of_play hplay, lines_of_play hplay⟩

/-- A program with a limit, which what was written before is within. -/
theorem compile_limited {e : Emitter} {limit : Nat} (hfree : e.sink.limit = none)
    (h : e.sink.written.size ≤ limit) (p : Program) :
    let text := (e.compile p).2.sink.written
    if text.size ≤ limit then
      (e.limited limit).compile p = ((e.compile p).1, (e.compile p).2.limited limit)
    else ∃ e', (e.limited limit).compile p = (.error (.io e.sink.overflow), e') ∧
      CutOff e.sink.overflow limit text
        (e.lines + linesWithin (limit - e.sink.written.size) (p.code e.nextLabel).lines) e' := by
  intro text
  obtain ⟨hstate, htext, -⟩ := compile_unlimited hfree p
  have hplay := play_limited hfree h (p.code e.nextLabel).items
  have hwhole : text = e.sink.written ++
    (listing (Code.lines ⟨(p.code e.nextLabel).items, none⟩)).toUTF8 := htext
  dsimp only at hplay
  rw [← hwhole] at hplay
  have hcode : (e.limited limit).compile p = (e.limited limit).assemble (p.code e.nextLabel) := rfl
  rw [hcode, assemble]
  by_cases hfits : text.size ≤ limit
  · -- What comes behind the lines, an obstacle or the end, is the same.
    rw [if_pos hfits] at hplay
    rw [if_pos hfits, hplay, compile_eq_of_unlimited hfree p, hstate]
    cases (p.code e.nextLabel).obstacle <;> rfl
  · rw [if_neg hfits] at hplay
    obtain ⟨e', he, hcut⟩ := hplay
    rw [if_neg hfits, he]
    exact ⟨e', rfl, hcut⟩

end Emitter

/-- Compiling a program with a new emitter whose sink holds a number of bytes at most, by compiling
it with one whose sink holds any number of them. If all of the assembly fits, the two come to the
same: the result, the assembly, the labels and the count of lines. Otherwise the error is that of
the sink, also if the program has an obstacle later on, the sink has the part that fits, the lines
counted are those that are in it with their newlines, and whatever else is emitted fails and changes
nothing. -/
theorem full_sink_truncates_assembly (p : Program) (overflow : IoError)
    (flushFault : Option IoError) (limit : Nat) :
    let free := Emitter.compile { sink := { overflow, flushFault } } p
    let full := Emitter.compile { sink := { limit := some limit, overflow, flushFault } } p
    let lines := (p.code 1).lines
    let text := free.2.sink.written
    text = (listing lines).toUTF8 ∧ free.2.lines = lines.length ∧
    if text.size ≤ limit then full = (free.1, free.2.limited limit)
    else full.1 = .error (.io overflow) ∧ full.2.sink.written = text.extract 0 limit ∧
      full.2.lines = linesWithin limit lines ∧
      ∀ line, full.2.emit line = (.error overflow, full.2) := by
  intro free full lines text
  have hfree := Emitter.compile_unlimited (e := { sink := { overflow, flushFault } }) rfl p
  have hlimited := Emitter.compile_limited (e := { sink := { overflow, flushFault } }) rfl
    (Nat.zero_le limit) p
  refine ⟨hfree.2.1.trans ByteArray.empty_append, hfree.2.2.trans (Nat.zero_add _), ?_⟩
  by_cases hfits : text.size ≤ limit
  · rw [if_pos hfits] at hlimited ⊢
    exact hlimited
  · rw [if_neg hfits] at hlimited ⊢
    obtain ⟨e', hfull, hcut⟩ := hlimited
    rw [show full = _ from hfull]
    exact ⟨rfl, hcut.written, hcut.lines.trans (Nat.zero_add _), hcut.emit⟩

end Blockwork
