import GridRobot.Proofs.Assembler.Lines

/-!
# Texts put behind each other

The assembler reads every line by itself, so a text in front only moves what is made of the lines behind it: their instructions lie
behind the others and have greater line numbers, and what is wrong with one of them is further on. So two texts are assembled one
behind the other as they are each by itself (`assemble_line_wise`).
-/

namespace GridRobot

open Text

/-! ## Moving on -/

/-- The word with so many more bytes in front. -/
def Text.Word.moved (w : Word) (bytes : Nat) : Word := { w with start := w.start + bytes }

/-- The error with so many more bytes in front. -/
def SourceError.moved (e : SourceError) (bytes : Nat) : SourceError := { e with position := e.position + bytes }

/-- The instruction with so many more lines in front. -/
def Instruction.moved (i : Instruction) (lines : Nat) : Instruction := { i with line := i.line + lines }

namespace Text

/-- A word that is taken further on is the same word further on. -/
theorem consWord_moved (c : Char) (start bytes : Nat) (ws : List Word) :
    consWord c (start + bytes) (ws.map (·.moved bytes)) = (consWord c start ws).map (·.moved bytes) := by
  cases ws with
  | nil => rfl
  | cons w ws =>
    have hnext : w.start + bytes = start + bytes + c.utf8Size ↔ w.start = start + c.utf8Size := by omega
    simp only [List.map_cons, consWord, Word.moved, hnext]
    split <;> rfl

/-- The words of a text are the same wherever it begins. -/
theorem words_moved (text : List Char) (start bytes : Nat) :
    words text (start + bytes) = (words text start).map (·.moved bytes) := by
  induction text generalizing start with
  | nil => rfl
  | cons c rest ih =>
    rw [words, words, Nat.add_right_comm start bytes, ih]
    split
    · rfl
    · exact consWord_moved ..

end Text

namespace Assembler

/-! ## One line -/

/-- Which words are columns does not depend on where they are. -/
theorem dropColumns_moved (ws : List Word) (bytes : Nat) :
    dropColumns (ws.map (·.moved bytes)) = (dropColumns ws).map (·.moved bytes) := by
  match ws with
  | [] | [_] => rfl
  | address :: word :: rest =>
    change (if isColumn 3 address && isColumn 4 word then _ else _) = _
    rw [dropColumns]
    split <;> rfl

/-- Words too many are refused further on in the same way. -/
theorem noMore_moved (ws : List Word) (bytes : Nat) :
    noMore (ws.map (·.moved bytes)) = (noMore ws).mapError (·.moved bytes) := by
  cases ws <;> rfl

/-- An operand is read further on in the same way. -/
theorem readOperand_moved (make : Nat → Opcode) (w : Word) (bytes : Nat) :
    readOperand make (w.moved bytes) = (readOperand make w).mapError (·.moved bytes) := by
  unfold readOperand
  dsimp only [Word.moved]
  cases (hexNumber? w.text).filter (fun _ => w.text.length == 3) with
  | none => rfl
  | some n =>
    dsimp only
    split
    · split <;> rfl
    · rfl

/-- Words are read further on in the same way. -/
theorem readWords_moved (ws : List Word) (bytes : Nat) :
    readWords (ws.map (·.moved bytes)) = (readWords ws).mapError (·.moved bytes) := by
  cases ws with
  | nil => rfl
  | cons name rest =>
    have hname : (name.moved bytes).toString = name.toString := rfl
    simp only [List.map_cons, readWords, hname]
    cases Opcode.primitiveNamed name.toString with
    | some op =>
      dsimp only
      rw [noMore_moved]
      cases noMore rest <;> rfl
    | none =>
      cases Opcode.addressedNamed name.toString with
      | none => rfl
      | some make =>
        cases rest with
        | nil =>
          have hstop : (name.moved bytes).stop = name.stop + bytes := Nat.add_right_comm ..
          simp only [List.map_nil, hstop]
          rfl
        | cons operand rest =>
          simp only [List.map_cons, readOperand_moved, noMore_moved]
          cases readOperand make operand with
          | error e => rfl
          | ok op => cases noMore rest <;> rfl

/-- A line says the same wherever it begins, and what is wrong with it is moved along. -/
theorem readLine_moved (line : List Char) (start bytes : Nat) :
    readLine line (start + bytes) = (readLine line start).mapError (·.moved bytes) := by
  unfold readLine
  split
  · rfl
  · rw [words_moved, dropColumns_moved, readWords_moved]

/-- A line is refused for what it says, unless memory is full. -/
theorem readLine_of_refused {p : Program} {number start : Nat} {line : List Char} {e : SourceError}
    (h : assembleLines p number start [line] = .error e) (hcode : e.problem.code ≠ .outOfMemory) :
    readLine line start = .error e := by
  cases hread : readLine line start with
  | error e' =>
    obtain rfl := Except.error.inj ((assembleLines_of_error hread).symm.trans h)
    rfl
  | ok op? =>
    cases op? with
    | none => nomatch (assembleLines_of_none hread).symm.trans h
    | some op =>
      have hpush := (assembleLines_of_op hread).symm.trans h
      split at hpush
      · nomatch hpush
      · rename_i e' hfull
        obtain rfl := Program.push_eq_error hfull
        obtain rfl := Except.error.inj hpush
        exact absurd rfl hcode

/-! ## Line after line -/

/-- Lines are assembled one behind the other. -/
theorem assembleLines_append (p : Program) (number start : Nat) (ls others : List (List Char)) :
    assembleLines p number start (ls ++ others) =
      assembleLines p number start ls >>= fun q =>
        assembleLines q (number + ls.length) (start + byteLength (joinRows ls)) others := by
  induction ls generalizing p number start with
  | nil => rfl
  | cons row ls ih =>
    rw [List.cons_append]
    simp only [number_behind, start_behind]
    rcases lineStep p number start row with ⟨-, hlines⟩ | ⟨-, hlines⟩ | ⟨-, -, hlines⟩
    · rw [hlines, hlines]
      rfl
    · rw [hlines, hlines]
      exact ih ..
    · rw [hlines, hlines]
      exact ih ..

/-- No instruction is lost. -/
theorem size_le_of_assembleLines {p q : Program} {number start : Nat} {ls : List (List Char)}
    (h : assembleLines p number start ls = .ok q) : p.size ≤ q.size := by
  induction ls generalizing p number start with
  | nil =>
    obtain rfl := Except.ok.inj h
    exact Nat.le_refl _
  | cons row ls ih =>
    rcases lineStep p number start row with ⟨-, hlines⟩ | ⟨-, hlines⟩ | ⟨-, hpush, hlines⟩
    · nomatch (hlines ls).symm.trans h
    · exact ih ((hlines ls).symm.trans h)
    · obtain ⟨-, hsize, -⟩ := Program.push_eq_ok hpush
      have hrest := ih ((hlines ls).symm.trans h)
      omega

/-- A program is another one with the instructions of a third, moved on by some lines, behind its own. -/
def Stacked (p q : Program) (lines : Nat) (r : Program) : Prop :=
  p.pushAll (q.instructions.map (·.moved lines)) = .ok r

section

variable {p q q' r : Program} {lines a : Nat}

/-- The size is that of both programs. -/
theorem Stacked.size_eq (h : Stacked p q lines r) : r.size = p.size + q.size := by
  obtain ⟨hsize, -⟩ := Program.pushAll_eq_ok h
  rw [hsize, List.length_map, q.length_instructions]

/-- What is put behind the second program is put behind both, with its line moved. -/
theorem Stacked.push {i : Instruction} (h : Stacked p q lines r) (hpush : q.push i = .ok (a, q'))
    (hfit : p.size + q'.size ≤ memorySize) : ∃ r', r.push (i.moved lines) = .ok (r.size, r') ∧ Stacked p q' lines r' := by
  obtain ⟨-, hsize, hinstructions, -⟩ := Program.push_eq_ok hpush
  have hr := h.size_eq
  obtain ⟨r', hr'⟩ := Program.exists_push (p := r) (by omega) (i.moved lines)
  refine ⟨r', hr', ?_⟩
  calc p.pushAll (q'.instructions.map (·.moved lines))
      = p.pushAll (q.instructions.map (·.moved lines)) >>= fun r => r.pushAll [i.moved lines] := by
        rw [hinstructions, List.map_append, Program.pushAll_append]
        rfl
    _ = r.pushAll [i.moved lines] := by rw [h]; rfl
    _ = .ok r' := by rw [Program.pushAll_cons, hr']; rfl

/-- Lines make the same of what is stacked, if it fits into memory. The induction is on the lines. -/
theorem assembleLines_stacked {number start bytes : Nat} {ls : List (List Char)} (hr : Stacked p q lines r)
    (h : assembleLines q number start ls = .ok q') (hfit : p.size + q'.size ≤ memorySize) :
    ∃ r', assembleLines r (number + lines) (start + bytes) ls = .ok r' ∧ Stacked p q' lines r' := by
  induction ls generalizing q r number start with
  | nil =>
    obtain rfl := Except.ok.inj h
    exact ⟨r, rfl, hr⟩
  | cons row ls ih =>
    have hnumber : number + lines + 1 = number + 1 + lines := Nat.add_right_comm ..
    have hstart : start + bytes + byteLength row + 1 = start + byteLength row + 1 + bytes := by omega
    rcases lineStep q number start row with ⟨-, hlines⟩ | ⟨hread, hlines⟩ | ⟨hread, hpush, hlines⟩
    · nomatch (hlines ls).symm.trans h
    · have hread' := readLine_moved row start bytes
      rw [hread] at hread'
      rw [assembleLines_of_none hread', hnumber, hstart]
      exact ih hr ((hlines ls).symm.trans h)
    · have hread' := readLine_moved row start bytes
      rw [hread] at hread'
      have hrest := (hlines ls).symm.trans h
      have hle := size_le_of_assembleLines hrest
      obtain ⟨r₁, hr₁, hstacked⟩ := hr.push hpush (by omega)
      have hmoved : assembleLines r (number + lines) (start + bytes) (row :: ls) = _ := assembleLines_of_push hread' hr₁
      rw [hmoved, hnumber, hstart]
      exact ih hstacked hrest

end

end Assembler

/-- Assembling goes line by line. Two texts that are accepted and fit into memory together are accepted one behind the other, with the
instructions of the first and behind them those of the second, whose lines are moved on by the number of lines of the first. What is
wrong with the first text is wrong with both of them, at the same place. If only the second one is refused, and not for the want of
memory, then both of them are refused for the same at the same place of the second, unless memory is too small for the instructions of
the first and of those lines of the second that lie in front of the error. -/
theorem assemble_line_wise (s t : String) :
    (∀ p q, assemble s = .ok p → assemble t = .ok q → p.size + q.size ≤ memorySize →
        ∃ r, assemble (s ++ "\n" ++ t) = .ok r ∧
          r.instructions = p.instructions ++ q.instructions.map (·.moved (s.toList.count '\n' + 1))) ∧
      (∀ e, assemble s = .error e → assemble (s ++ "\n" ++ t) = .error e) ∧
      ∀ p e, assemble s = .ok p → assemble t = .error e → e.problem.code ≠ .outOfMemory →
        ∃ before line q, Assembler.LineAt .empty 1 0 (pieces t.toList) before line q ∧
          before.length + 1 = (e.diagnostic.location t).line ∧
          (p.size + q.size ≤ memorySize → assemble (s ++ "\n" ++ t) = .error (e.moved (s.utf8ByteSize + 1))) := by
  have htext : (s ++ "\n" ++ t).toList = s.toList ++ '\n' :: t.toList := by
    rw [String.toList_append, String.toList_append, List.append_assoc]
    rfl
  have hbytes : byteLength (joinRows (pieces s.toList)) = s.utf8ByteSize + 1 := by
    rw [joinRows_pieces, byteLength_append, ← utf8ByteSize_eq]
    rfl
  have hboth : assemble (s ++ "\n" ++ t) = assemble s >>= fun p =>
      Assembler.assembleLines p (1 + (s.toList.count '\n' + 1)) (0 + (s.utf8ByteSize + 1)) (pieces t.toList) := by
    rw [assemble, htext, pieces_append, Assembler.assembleLines_append, length_pieces, hbytes]
    rfl
  have hempty : ∀ p lines, Assembler.Stacked p .empty lines p := fun _ _ => rfl
  refine ⟨?_, ?_, ?_⟩
  · intro p q hs ht hfit
    obtain ⟨r, hr, hstacked⟩ := Assembler.assembleLines_stacked (hempty p _) ht hfit
    obtain ⟨-, hinstructions, -⟩ := Program.pushAll_eq_ok hstacked
    refine ⟨r, ?_, hinstructions⟩
    rw [hboth, hs]
    exact hr
  · intro e hs
    rw [hboth, hs]
    rfl
  · intro p e hs ht hcode
    obtain ⟨before, _, q, hat, hrefused, ⟨front, back, rfl, hposition⟩, -⟩ := Assembler.exists_of_assembleLines_error ht
    obtain ⟨after, hsplit⟩ := hat.split
    obtain ⟨-, hline⟩ := place_of_pieces hsplit
    refine ⟨before, _, q, hat, ?_, ?_⟩
    · rw [← hline, ← Nat.zero_add (byteLength (joinRows before)), ← hposition]
      rfl
    · intro hfit
      obtain ⟨r, hr, -⟩ := Assembler.assembleLines_stacked (hempty p _) hat.made hfit
      have hread := Assembler.readLine_moved (front ++ back) (0 + byteLength (joinRows before)) (s.utf8ByteSize + 1)
      rw [Assembler.readLine_of_refused (hrefused []) hcode] at hread
      rw [hboth, hs, hsplit]
      change Assembler.assembleLines p _ _ (before ++ (front ++ back) :: after) = _
      rw [Assembler.assembleLines_append, hr]
      change Assembler.assembleLines r _ _ ((front ++ back) :: after) = _
      rw [Nat.add_right_comm 0, Assembler.assembleLines_of_error hread]

end GridRobot
