import Mathlib.Logic.Function.Basic
import Blockwork.Assembly.Emitter

/-!
# What an emitter writes

An emitter that gets to the end of a piece of code has written the lines of the piece, one after the
other, and nothing else. So whatever is known of the lines of a program holds of the text that was
written for it.

* `Label.text_injective`: a label can be told by its text.
* `listing`: the text of lines; `written_of_play`.
* `Emitter.assemble_eq_ok`, `Emitter.compile_eq_ok`: if writing a piece of code or a program has
  succeeded, then there is no obstacle in it, and the text of its lines was written.
* `Emitter.assemble_eq_of_unlimited`: an obstacle is all that can stop an emitter without a limit.
* `Emitter.nextLabel_of_compile`, `Emitter.nextLabel_le_compile`: which labels were minted.
-/

namespace Blockwork

/-! ## Labels -/

namespace Label

/-- The characters of a label's text. -/
def characters : Label → List Char
  | main => ['m', 'a', 'i', 'n']
  | divisionGuard => ['d', 'i', 'v', '_', 'b', 'y', '_', 'z', 'e', 'r', 'o']
  | newline => ['n', 'e', 'w', 'l', 'i', 'n', 'e']
  | divisionMessage =>
    ['d', 'i', 'v', '_', 'z', 'e', 'r', 'o', '_', 'm', 'e', 's', 's', 'a', 'g', 'e']
  | .local number => 'L' :: Nat.toDigits 10 number
  | procedure name => 'p' :: 'r' :: 'o' :: 'c' :: '_' :: name.toList
  | .variable name => 'v' :: 'a' :: 'r' :: '_' :: name.toList

theorem toList_text (l : Label) : l.text.toList = l.characters := by
  cases l
  case «local» n =>
    show ("L" ++ n.repr).toList = 'L' :: Nat.toDigits 10 n
    simp
  case procedure x =>
    show ("proc_" ++ x).toList = 'p' :: 'r' :: 'o' :: 'c' :: '_' :: x.toList
    simp
  case «variable» x =>
    show ("var_" ++ x).toList = 'v' :: 'a' :: 'r' :: '_' :: x.toList
    simp
  all_goals rfl

/-- Different labels have different texts. -/
theorem text_injective : Function.Injective text := by
  intro a b h
  replace h : a.characters = b.characters :=
    (toList_text a).symm.trans ((congrArg String.toList h).trans (toList_text b))
  cases a <;> cases b <;> simp [characters, String.toList_inj] at h ⊢
  case «local» m n =>
    rw [← Nat.ofDigitChars_ten_toDigits (n := m), h, Nat.ofDigitChars_ten_toDigits]
  all_goals exact h

end Label

/-! ## Lines -/

/-- The text of lines, each with its newline. -/
def listing : List Line → String
  | [] => ""
  | line :: lines => line.text ++ "\n" ++ listing lines

namespace Sink

theorem written_of_write {s s' : Sink} {text : String} (h : s.write text = (.ok (), s')) :
    s'.written = s.written ++ text.toUTF8 := by
  simp only [write] at h
  split at h
  · cases h; rfl
  · cases h

/-- A write that fails may have written the beginning of the text. -/
theorem written_write (s : Sink) (text : String) : ∃ bytes more,
    (s.write text).2.written = s.written ++ bytes ∧ bytes ++ more = text.toUTF8 := by
  simp only [write]
  split
  · exact ⟨text.toUTF8, ByteArray.empty, rfl, ByteArray.append_empty⟩
  · refine ⟨_, text.toUTF8.extract (s.room text.toUTF8.size) text.toUTF8.size, rfl, ?_⟩
    have hroom : s.room text.toUTF8.size ≤ text.toUTF8.size := by
      unfold room
      split
      · exact Nat.le_refl _
      · exact Nat.min_le_left _ _
    rw [← ByteArray.extract_eq_extract_append_extract _ (Nat.zero_le _) hroom,
      ByteArray.extract_zero_size]

theorem write_of_unlimited {s : Sink} (h : s.limit = none) (text : String) :
    s.write text = (.ok (), { s with written := s.written ++ text.toUTF8 }) := by
  simp [write, room, h]

end Sink

namespace Emitter

theorem emit_eq_ok {e e' : Emitter} {line : String} (h : e.emit line = (.ok (), e')) :
    e'.sink.written = e.sink.written ++ (line ++ "\n").toUTF8 := by
  unfold emit at h
  split at h
  next sink hw => cases h; exact Sink.written_of_write hw
  next => cases h

theorem written_of_play {items : List Code.Item} {e e' : Emitter}
    (h : e.play items = (.ok (), e')) :
    e'.sink.written = e.sink.written ++ (listing (Code.lines ⟨items, none⟩)).toUTF8 := by
  induction items generalizing e with
  | nil => cases h; simp [Code.lines, listing, String.toUTF8]
  | cons item items ih =>
    cases item with
    | mint => exact ih (e := e.label.2) h
    | line line =>
      simp only [play] at h
      split at h
      next e₁ he =>
        rw [ih h, emit_eq_ok he]
        simp [Code.lines, listing, String.toUTF8, ByteArray.append_assoc]
      next => cases h

theorem play_of_unlimited (items : List Code.Item) {e : Emitter} (h : e.sink.limit = none) :
    (e.play items).1 = .ok () := by
  induction items generalizing e with
  | nil => rfl
  | cons item items ih =>
    cases item with
    | mint => exact ih h
    | line line =>
      simp only [play, emit, Sink.write_of_unlimited h]
      exact ih h

theorem assemble_eq_ok {e e' : Emitter} {c : Code} (h : e.assemble c = (.ok (), e')) :
    c.obstacle = none ∧ e'.sink.written = e.sink.written ++ (listing c.lines).toUTF8 := by
  simp only [assemble] at h
  split at h
  next => cases h
  next e₁ hp =>
    split at h
    next ho => cases h; exact ⟨ho, written_of_play hp⟩
    next => cases h

theorem compile_eq_ok {e e' : Emitter} {p : Program} (h : e.compile p = (.ok (), e')) :
    (p.code e.nextLabel).obstacle = none ∧
      e'.sink.written = e.sink.written ++ (listing (p.code e.nextLabel).lines).toUTF8 :=
  assemble_eq_ok h

/-- What writing a piece of code comes to if everything can be written. -/
theorem assemble_eq_of_unlimited {e : Emitter} (h : e.sink.limit = none) (c : Code) :
    (e.assemble c).1 = match c.obstacle with
      | none => .ok ()
      | some o => .error (.obstacle o) := by
  have hplay := play_of_unlimited c.items h
  simp only [assemble]
  generalize e.play c.items = r at hplay ⊢
  obtain ⟨_, e'⟩ := r
  subst hplay
  cases c.obstacle <;> rfl

theorem assemble_of_unlimited {e : Emitter} {c : Code} (hl : e.sink.limit = none)
    (ho : c.obstacle = none) : ∃ e', e.assemble c = (.ok (), e') := by
  have hassemble := assemble_eq_of_unlimited hl c
  rw [ho] at hassemble
  exact ⟨(e.assemble c).2, Prod.ext hassemble rfl⟩

theorem compile_eq_of_unlimited {e : Emitter} (h : e.sink.limit = none) (p : Program) :
    (e.compile p).1 = match (p.code e.nextLabel).obstacle with
      | none => .ok ()
      | some o => .error (.obstacle o) :=
  assemble_eq_of_unlimited h _

theorem compile_of_unlimited {e : Emitter} {p : Program} (hl : e.sink.limit = none)
    (ho : (p.code e.nextLabel).obstacle = none) : ∃ e', e.compile p = (.ok (), e') :=
  assemble_of_unlimited hl ho

theorem sink_of_emit (e : Emitter) (line : String) :
    (e.emit line).2.sink = (e.sink.write (line ++ "\n")).2 := by
  unfold emit
  split <;> rename_i h <;> rw [h]

/-- What is written for a program is the beginning of its text, whatever may stop it. -/
theorem written_play (items : List Code.Item) (e : Emitter) : ∃ bytes more,
    (e.play items).2.sink.written = e.sink.written ++ bytes ∧
      bytes ++ more = (listing (Code.lines ⟨items, none⟩)).toUTF8 := by
  fun_induction play e items with
  | case1 => exact ⟨ByteArray.empty, ByteArray.empty, by simp, by simp [Code.lines, listing]⟩
  | case2 e items ih => exact ih
  | case3 e line items e' h ih =>
    obtain ⟨bytes, more, hw, hm⟩ := ih
    refine ⟨(line.text ++ "\n").toUTF8 ++ bytes, more, ?_, ?_⟩
    · rw [hw, emit_eq_ok h, ByteArray.append_assoc]
    · rw [ByteArray.append_assoc, hm]
      simp [Code.lines, listing, String.toUTF8, ByteArray.append_assoc]
  | case4 e line items error e' h =>
    obtain ⟨bytes, more, hw, hm⟩ := e.sink.written_write (line.text ++ "\n")
    refine ⟨bytes, more ++ (listing (Code.lines ⟨items, none⟩)).toUTF8, ?_, ?_⟩
    · rw [← hw, ← sink_of_emit, h]
    · rw [← ByteArray.append_assoc, hm]
      simp [Code.lines, listing, String.toUTF8, ByteArray.append_assoc]

theorem written_compile (e : Emitter) (p : Program) : ∃ bytes more,
    (e.compile p).2.sink.written = e.sink.written ++ bytes ∧
      bytes ++ more = (listing (p.code e.nextLabel).lines).toUTF8 := by
  obtain ⟨bytes, more, hw, hm⟩ := written_play (p.code e.nextLabel).items e
  refine ⟨bytes, more, ?_, hm⟩
  rw [← hw]
  simp only [compile, assemble]
  split
  next hp => rw [hp]
  next hp => rw [hp]; split <;> rfl

/-! ### The next label -/

theorem nextLabel_of_emit (e : Emitter) (line : String) :
    (e.emit line).2.nextLabel = e.nextLabel := by
  unfold emit
  split <;> rfl

theorem nextLabel_of_play {items : List Code.Item} {e e' : Emitter}
    (h : e.play items = (.ok (), e')) : e'.nextLabel = e.nextLabel + items.count .mint := by
  induction items generalizing e with
  | nil => cases h; rfl
  | cons item items ih =>
    cases item with
    | mint =>
      rw [ih (e := e.label.2) h, List.count_cons_self]
      exact Nat.add_right_comm _ _ _
    | line line =>
      simp only [play] at h
      split at h
      next e₁ he =>
        have hemit := nextLabel_of_emit e line.text
        rw [he] at hemit
        rw [ih h, hemit, List.count_cons_of_ne (by simp)]
      next => cases h

/-- No label is minted again, also if something cannot be written. -/
theorem nextLabel_le_play (items : List Code.Item) (e : Emitter) :
    e.nextLabel ≤ (e.play items).2.nextLabel := by
  fun_induction play e items with
  | case1 => exact Nat.le_refl _
  | case2 e items ih => exact Nat.le_trans (Nat.le_succ _) ih
  | case3 e line items e' h ih =>
    have hemit := nextLabel_of_emit e line.text
    rw [h] at hemit
    exact hemit ▸ ih
  | case4 e line items error e' h =>
    have hemit := nextLabel_of_emit e line.text
    rw [h] at hemit
    exact Nat.le_of_eq hemit.symm

theorem nextLabel_of_compile {e e' : Emitter} {p : Program} (h : e.compile p = (.ok (), e')) :
    e'.nextLabel = e.nextLabel + (p.code e.nextLabel).labelCount := by
  simp only [compile, assemble] at h
  split at h
  next => cases h
  next e₁ hp =>
    split at h
    next ho => cases h; exact nextLabel_of_play hp
    next => cases h

theorem nextLabel_le_compile (e : Emitter) (p : Program) :
    e.nextLabel ≤ (e.compile p).2.nextLabel := by
  have h := nextLabel_le_play (p.code e.nextLabel).items e
  simp only [compile, assemble]
  split
  next hp => rw [hp] at h; exact h
  next hp =>
    rw [hp] at h
    split <;> exact h

end Emitter

end Blockwork
