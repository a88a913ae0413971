import GridRobot.Proofs.Assembler.Acceptable

/-!
# Listings and disassemblies assemble back

Both texts of a program are rows that show its instructions, behind a header that shows none or behind nothing. The assembler puts
the words of such rows into memory again, one by one with the numbers of their lines, up to the first one that it objects to.
-/

namespace GridRobot

open Text

namespace Assembler

/-- An instruction that nothing is said against is that of an operation. -/
theorem decode_of_fine {i : Instruction} (h : i.objection? = none) : ∃ op, i.decode = some op ∧ op.objection? = none := by
  unfold Instruction.objection? at h
  split at h
  · rename_i op hd
    exact ⟨op, hd, h⟩
  · nomatch h

/-! ## Rows of instructions -/

/-- Rows of instructions that nothing is said against are put into memory, each with the number of its line. -/
theorem assembleLines_rows (row : Nat → Instruction → List Char) {is : List Instruction}
    (hshows : ∀ k i, is[k]? = some i → Shows (row k i) i) (hfine : ∀ i ∈ is, i.objection? = none) {p : Program}
    (hfit : p.size + is.length ≤ memorySize) (number start : Nat) :
    ∃ q, q.instructions = p.instructions ++ is.mapIdx (fun k i => ⟨i.word, k + number⟩) ∧ q.entry = p.entry ∧
      ∀ rest, assembleLines p number start (is.mapIdx row ++ rest) =
        assembleLines q (number + is.length) (start + byteLength (joinRows (is.mapIdx row))) rest := by
  induction is generalizing row p number start with
  | nil => exact ⟨p, by simp, rfl, fun rest => rfl⟩
  | cons i is ih =>
    obtain ⟨hi, his⟩ := List.forall_mem_cons.1 hfine
    obtain ⟨op, hd, hop⟩ := decode_of_fine hi
    obtain ⟨-, before, after, -, hread⟩ := hshows 0 i rfl
    have hline : readLine (row 0 i) start = .ok (some op) := by rw [hread, answer, hi, hd]
    have hword : Instruction.of op number = ⟨i.word, number⟩ := by rw [Instruction.of, (Opcode.encode_of_decode hd).1]
    rw [List.length_cons] at hfit
    obtain ⟨p₁, hp₁⟩ := Program.exists_push (p := p) (by omega) (.of op number)
    obtain ⟨-, hsize, hinstructions, hentry, -⟩ := Program.push_eq_ok hp₁
    obtain ⟨q, hq, hqe, hrest⟩ := ih (fun k => row (k + 1)) (fun k j hj => hshows (k + 1) j hj) his (p := p₁)
      (by omega) (number + 1) (start + byteLength (row 0 i) + 1)
    refine ⟨q, ?_, hqe.trans hentry, ?_⟩
    · rw [hq, hinstructions, hword, List.mapIdx_cons, List.append_assoc, List.singleton_append, Nat.zero_add]
      simp only [Nat.add_assoc, Nat.add_comm 1]
    · intro rest
      rw [List.mapIdx_cons, List.cons_append, assembleLines_of_push hline hp₁, hrest, joinRows_cons]
      have hnumber : number + 1 + is.length = number + (i :: is).length := by rw [List.length_cons]; omega
      have hstart : start + byteLength (row 0 i) + 1 + byteLength (joinRows (is.mapIdx fun k => row (k + 1))) =
          start + byteLength (row 0 i ++ '\n' :: joinRows (is.mapIdx fun k => row (k + 1))) := by
        rw [byteLength_append, byteLength_cons]
        have hnewline : '\n'.utf8Size = 1 := rfl
        omega
      rw [hnumber, hstart]

/-- Lines that say nothing are passed over. -/
theorem assembleLines_silent {header : List (List Char)} (h : ∀ line ∈ header, ∀ start, readLine line start = .ok none)
    (p : Program) (number start : Nat) (rest : List (List Char)) :
    assembleLines p number start (header ++ rest) =
      assembleLines p (number + header.length) (start + byteLength (joinRows header)) rest := by
  induction header generalizing number start with
  | nil => rfl
  | cons line header ih =>
    obtain ⟨hline, hheader⟩ := List.forall_mem_cons.1 h
    rw [List.cons_append, assembleLines_of_none (hline start), ih hheader, joinRows_cons, List.length_cons,
      byteLength_append, byteLength_cons]
    have hnewline : '\n'.utf8Size = 1 := rfl
    have hnumber : number + 1 + header.length = number + (header.length + 1) := by omega
    have hstart : start + byteLength line + 1 + byteLength (joinRows header) =
        start + (byteLength line + ('\n'.utf8Size + byteLength (joinRows header))) := by omega
    rw [hnumber, hstart]

/-! ## Texts of instructions -/

/-- A text has the rows of instructions, behind lines that say nothing. -/
structure Writes (text : String) (header : List (List Char)) (row : Nat → Instruction → List Char)
    (is : List Instruction) : Prop where
  rows : text.toList = joinRows (header ++ is.mapIdx row)
  silent : ∀ line ∈ header, '\n' ∉ line ∧ ∀ start, readLine line start = .ok none
  shows : ∀ k i, is[k]? = some i → Shows (row k i) i

namespace Writes

variable {text : String} {header : List (List Char)} {row : Nat → Instruction → List Char} {is : List Instruction}

/-- Neither the header nor the row of an instruction is broken by a newline. -/
theorem unbroken (h : Writes text header row is) : ∀ line ∈ header ++ is.mapIdx row, '\n' ∉ line := by
  intro line hline
  rcases List.mem_append.1 hline with hline | hline
  · exact (h.silent line hline).1
  · obtain ⟨k, hk, rfl⟩ := List.mem_mapIdx.1 hline
    exact (h.shows k is[k] (List.getElem?_eq_getElem hk)).unbroken

/-- A text of rows is assembled row by row, behind its header. -/
theorem assemble_eq (h : Writes text header row is) :
    assemble text = assembleLines .empty (1 + header.length) (byteLength (joinRows header)) (is.mapIdx row ++ [[]]) := by
  rw [assemble, h.rows, pieces_joinRows h.unbroken, List.append_assoc,
    assembleLines_silent (fun line hline => (h.silent line hline).2), Nat.zero_add]

/-- A text of instructions that nothing is said against assembles to their words, in their order and with the numbers of their
rows. -/
theorem assembles (h : Writes text header row is) (hfit : is.length ≤ memorySize)
    (hfine : ∀ i ∈ is, i.objection? = none) :
    ∃ q, assemble text = .ok q ∧ q.instructions = is.mapIdx (fun k i => ⟨i.word, k + (1 + header.length)⟩) ∧
      q.entry = 0 := by
  obtain ⟨q, hq, hentry, hrest⟩ := assembleLines_rows row h.shows hfine (p := .empty)
    (by rw [show Program.empty.size = 0 from rfl]; omega) (1 + header.length) (byteLength (joinRows header))
  refine ⟨q, ?_, hq, hentry⟩
  rw [h.assemble_eq, hrest, assembleLines_of_none (by rfl)]
  rfl

/-- A text of instructions does not assemble if there is something to say against one of them. It is said of the first one, on the
line of its row. -/
theorem refuses {before after : List Instruction} {i : Instruction} {problem : Problem}
    (h : Writes text header row (before ++ i :: after)) (hfit : (before ++ i :: after).length ≤ memorySize)
    (hbefore : ∀ j ∈ before, j.objection? = none) (hi : i.objection? = some problem) :
    ∃ e, assemble text = .error e ∧ e.problem = problem ∧
      (e.diagnostic.location text).line = before.length + (1 + header.length) := by
  have hshows : ∀ k j, before[k]? = some j → Shows (row k j) j := by
    intro k j hj
    apply h.shows
    rw [List.getElem?_append_left (List.getElem?_eq_some_iff.1 hj).1]
    exact hj
  obtain ⟨hline, front, back, hsplit, hread⟩ := h.shows before.length i (by simp)
  rw [List.length_append] at hfit
  obtain ⟨q, -, -, hrest⟩ := assembleLines_rows row hshows hbefore (p := .empty)
    (by rw [show Program.empty.size = 0 from rfl]; omega) (1 + header.length) (byteLength (joinRows header))
  -- the rows in front of the one that is refused, with the header
  let rows := header ++ before.mapIdx row
  obtain ⟨others, hothers⟩ : ∃ others, header ++ (before ++ i :: after).mapIdx row = rows ++ row before.length i :: others := by
    rw [List.mapIdx_append, List.mapIdx_cons, ← List.append_assoc, Nat.zero_add]
    exact ⟨_, rfl⟩
  have hunbroken := h.unbroken
  rw [hothers] at hunbroken
  have hrows : ∀ line ∈ rows, '\n' ∉ line := fun line hl => hunbroken line (List.mem_append_left _ hl)
  have htext : text.toList = (joinRows rows ++ front) ++ (back ++ '\n' :: joinRows others) := by
    rw [h.rows, hothers, joinRows_append, joinRows_cons, hsplit]
    simp only [List.append_assoc]
  have hoffset : byteLength (joinRows header) + byteLength (joinRows (before.mapIdx row)) + byteLength front =
      byteLength (joinRows rows ++ front) := by
    rw [joinRows_append, byteLength_append, byteLength_append]
  refine ⟨⟨problem, byteLength (joinRows rows ++ front)⟩, ?_, rfl, ?_⟩
  · rw [h.assemble_eq, List.mapIdx_append, List.mapIdx_cons, List.append_assoc, hrest, Nat.zero_add, List.cons_append]
    apply assembleLines_of_error
    rw [hread, hoffset, answer, hi]
  · have hfront : '\n' ∉ front := by
      rw [hsplit] at hline
      exact fun hmem => hline (List.mem_append_left _ hmem)
    change (Location.ofOffset text.toList (byteLength (joinRows rows ++ front))).line = _
    rw [htext, Location.line_ofOffset, List.count_append, count_newline_joinRows hrows,
      List.count_eq_zero_of_not_mem hfront, List.length_append, List.length_mapIdx]
    omega

end Writes

end Assembler

/-! ## Disassemblies and listings -/

namespace Program

theorem length_instructions_le (p : Program) : p.instructions.length ≤ memorySize := by
  rw [p.length_instructions]
  exact p.size_le

/-- The operations of a program are written as rows without a header. -/
theorem writes_disassembly (p : Program) :
    Assembler.Writes p.disassembly [] (fun _ i => i.mnemonic.toList) p.instructions where
  rows := by
    have hrows := toList_join_rows (p.instructions.map Instruction.mnemonic)
    rw [List.map_map, List.map_map] at hrows
    have hmap : p.instructions.mapIdx (fun _ i => i.mnemonic.toList) =
        p.instructions.map (String.toList ∘ Instruction.mnemonic) :=
      List.ext_getElem (by simp) (by simp)
    rw [List.nil_append, hmap, ← hrows]
    rfl
  silent := nofun
  shows := fun _ i _ => Assembler.shows_mnemonic i

/-- The rows of a listing are those of the instructions in memory. -/
theorem rows_eq (p : Program) : p.rows = p.instructions.mapIdx listingRow := by
  have hfirst : ∀ n ≤ p.size, (List.range n).filterMap p.row? = (p.instructions.take n).mapIdx listingRow := by
    intro n hn
    induction n with
    | zero => rfl
    | succ n ih =>
      have hlt : n < p.instructions.length := by
        rw [p.length_instructions]
        exact hn
      have hrow : p.row? n = some (listingRow n p.instructions[n]) := by
        rw [row?, get?_eq_of_instructions (List.getElem?_eq_getElem hlt), Option.map_some]
      rw [List.range_succ, List.filterMap_append, ih (Nat.le_of_succ_le hn), ← List.take_concat_get hlt,
        List.concat_eq_append, List.mapIdx_concat, List.length_take_of_le (Nat.le_of_lt hlt), List.filterMap_cons, hrow]
      rfl
  rw [rows, hfirst p.size (Nat.le_refl _), List.take_of_length_le (Nat.le_of_eq p.length_instructions)]

/-- A listing is written as rows behind its header. -/
theorem writes_listing (p : Program) :
    Assembler.Writes p.listing [listingHeader.toList] (fun a i => (listingRow a i).toList) p.instructions where
  rows := by
    rw [listing, rows_eq, toList_join_rows, List.map_cons]
    congr 2
    exact List.ext_getElem (by simp) (by simp)
  silent := by
    intro line hline
    obtain rfl := List.mem_singleton.1 hline
    exact ⟨by decide, fun start => rfl⟩
  shows := by
    intro a i hi
    have ha := Nat.lt_of_lt_of_le (lt_size_of_instructions hi) p.size_le
    exact Assembler.shows_listingRow ha i

end Program

/-- The first instruction that something is said against, if there is one. -/
theorem Assembler.exists_first_objection {is : List Instruction} (h : ¬ ∀ i ∈ is, i.objection? = none) :
    ∃ before i after problem, is = before ++ i :: after ∧ (∀ j ∈ before, j.objection? = none) ∧
      i.objection? = some problem := by
  have hfound : (is.find? (fun i => i.objection?.isSome)).isSome = true := by
    rw [List.find?_isSome]
    obtain ⟨i, hi⟩ := Classical.not_forall.1 h
    obtain ⟨hmem, hi⟩ := Classical.not_imp.1 hi
    exact ⟨i, hmem, Option.isSome_iff_ne_none.2 hi⟩
  obtain ⟨i, hi⟩ := Option.isSome_iff_exists.1 hfound
  obtain ⟨hsome, before, after, his, hbefore⟩ := List.find?_eq_some_iff_append.1 hi
  obtain ⟨problem, hproblem⟩ := Option.isSome_iff_exists.1 hsome
  refine ⟨before, i, after, problem, his, ?_, hproblem⟩
  intro j hj
  simpa using hbefore j hj

/-- The disassembly and the listing of a program assemble to the words of the program, in their order and with the numbers of
their lines, if nothing is said against any of them; so do those of every program that is compiled or assembled. Otherwise both
are refused, on the row of the first word that something is said against, for what is said against it. -/
theorem assembles_back (p : Program) :
    ((∀ i ∈ p.instructions, i.objection? = none) →
      ∃ q r, assemble p.disassembly = .ok q ∧ assemble p.listing = .ok r ∧
        q.instructions = p.instructions.mapIdx (fun k i => ⟨i.word, k + 1⟩) ∧ q.entry = 0 ∧
        r.instructions = p.instructions.mapIdx (fun k i => ⟨i.word, k + 2⟩) ∧ r.entry = 0) ∧
    ((¬ ∀ i ∈ p.instructions, i.objection? = none) →
      ∃ before i after problem, p.instructions = before ++ i :: after ∧ (∀ j ∈ before, j.objection? = none) ∧
        i.objection? = some problem ∧ ∃ e f, assemble p.disassembly = .error e ∧ assemble p.listing = .error f ∧
          e.problem = problem ∧ (e.diagnostic.location p.disassembly).line = before.length + 1 ∧
          f.problem = problem ∧ (f.diagnostic.location p.listing).line = before.length + 2) ∧
    (∀ source entry, compile source entry = .ok p → ∀ i ∈ p.instructions, i.objection? = none) ∧
    (∀ source, assemble source = .ok p → ∀ i ∈ p.instructions, i.objection? = none) := by
  refine ⟨?_, ?_, fun source entry h => fine_of_compile h, fun source h => fine_of_assemble h⟩
  · intro hfine
    obtain ⟨q, hq, hqi, hqe⟩ := p.writes_disassembly.assembles p.length_instructions_le hfine
    obtain ⟨r, hr, hri, hre⟩ := p.writes_listing.assembles p.length_instructions_le hfine
    exact ⟨q, r, hq, hr, hqi, hqe, hri, hre⟩
  · intro hnot
    obtain ⟨before, i, after, problem, his, hbefore, hi⟩ := Assembler.exists_first_objection hnot
    have hle := p.length_instructions_le
    have hd := p.writes_disassembly
    have hl := p.writes_listing
    rw [his] at hle hd hl
    obtain ⟨e, he, hep, hel⟩ := hd.refuses hle hbefore hi
    obtain ⟨f, hf, hfp, hfl⟩ := hl.refuses hle hbefore hi
    exact ⟨before, i, after, problem, his, hbefore, hi, e, f, he, hf, hep, hel, hfp, hfl⟩

/-- A push of two, an action and a return come back with the numbers of their rows as lines. A push of one has no row that is
accepted, and its listing is refused on line 2, behind the entry. -/
theorem assembles_back_of_pushes :
    (∃ p q, Program.empty.pushAll [⟨0x8002, 7⟩, ⟨0x0001, 7⟩, ⟨0x9000, 8⟩] = .ok p ∧ assemble p.disassembly = .ok q ∧
      q.instructions = [⟨0x8002, 1⟩, ⟨0x0001, 2⟩, ⟨0x9000, 3⟩]) ∧
    ∃ p e, Program.empty.pushAll [⟨0x8001, 7⟩] = .ok p ∧ assemble p.listing = .error e ∧
      e.problem = .countOutOfRange "001" ∧ (e.diagnostic.location p.listing).line = 2 := by
  constructor
  · have hfit : Program.empty.size + [(⟨0x8002, 7⟩ : Instruction), ⟨0x0001, 7⟩, ⟨0x9000, 8⟩].length ≤ memorySize := by decide
    obtain ⟨p, hp⟩ := Program.exists_pushAll hfit
    have hinstructions := (Program.pushAll_eq_ok hp).2.1
    obtain ⟨q, -, hq, -, hqi, -⟩ := (assembles_back p).1 (by rw [hinstructions]; decide)
    rw [hinstructions] at hqi
    exact ⟨p, q, hp, hq, hqi⟩
  · have hfit : Program.empty.size + [(⟨0x8001, 7⟩ : Instruction)].length ≤ memorySize := by decide
    obtain ⟨p, hp⟩ := Program.exists_pushAll hfit
    have hinstructions := (Program.pushAll_eq_ok hp).2.1
    obtain ⟨before, i, after, problem, his, -, hi, -, e, -, he, -, -, hproblem, hline⟩ :=
      (assembles_back p).2.1 (by rw [hinstructions]; decide)
    rw [hinstructions, Program.instructions_empty, List.nil_append] at his
    obtain ⟨rfl, rfl, rfl⟩ : before = [] ∧ i = ⟨0x8001, 7⟩ ∧ after = [] := by
      cases before with
      | nil => exact ⟨rfl, (List.cons.inj his).1.symm, (List.cons.inj his).2.symm⟩
      | cons j before => simp at his
    have hsaid : (⟨0x8001, 7⟩ : Instruction).objection? = some (.countOutOfRange "001") := by decide
    obtain rfl := Option.some.inj (hi.symm.trans hsaid)
    exact ⟨p, e, hp, he, hproblem, hline⟩

end GridRobot
