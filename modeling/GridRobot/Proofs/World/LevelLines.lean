import GridRobot.Proofs.Results
import GridRobot.Proofs.World.Bounds
import GridRobot.Proofs.Text.Numerals

/-!
# Lines of level texts

A line of a level text says nothing, places the robot, or is a row, by how it begins. What a line about the robot does is settled by
its four words, of which the first is not looked at (`robot_line_accepted_iff`): so a line that begins with the letters of `robot`
in a longer word places the robot, too (`robot_line_of_longer_word`).
-/

namespace GridRobot

open Text

/-- A text is put in small letters character by character. -/
theorem Text.toLower_eq_iff {s t : String} : s.toLower = t ↔ s.toList.map Char.toLower = t.toList := by
  rw [← String.toList_inj]
  exact String.toList_map ▸ Iff.rfl

/-- A heading is found by its name in letters of any case, and by nothing else. -/
theorem Heading.ofName?_eq_some_iff {text : String} {h : Heading} : ofName? text = some h ↔ text.toLower = h.name := by
  constructor
  · intro hfound
    have hname := List.find?_some (show all.find? _ = some h from hfound)
    exact (beq_iff_eq.1 hname).symm
  · intro hname
    rw [ofName?, hname]
    cases h <;> decide

namespace Level

/-! ## Kinds of lines -/

/-- A line that says nothing: it is blank or a remark. -/
def Silent (line : List Char) : Prop := trim line = [] ∨ ['#'] <+: trim line

/-- A line about the robot. -/
def AboutRobot (line : List Char) : Prop := "robot".toList <+: trim line

/-- Any other line is a row. -/
def AboutRow (line : List Char) : Prop := ¬ Silent line ∧ ¬ AboutRobot line

instance (line : List Char) : Decidable (Silent line) := inferInstanceAs (Decidable (_ ∨ _))

instance (line : List Char) : Decidable (AboutRobot line) := inferInstanceAs (Decidable (_ <+: _))

instance (line : List Char) : Decidable (AboutRow line) := inferInstanceAs (Decidable (_ ∧ _))

/-- The words of a line. -/
def wordsOf (line : List Char) : List (List Char) := (words (trim line) 0).map Word.text

section

variable {line : List Char} {d : Draft}

/-- A line is silent if it is blank or a comment when it is trimmed. -/
theorem silent_iff : Silent line ↔ trim line = [] ∨ (trim line).head? = some '#' := by
  cases h : trim line <;> simp [Silent, h, eq_comm]

theorem AboutRobot.not_silent (h : AboutRobot line) : ¬ Silent line := by
  obtain ⟨rest, hrest⟩ := h
  simp [Silent, ← hrest]

/-- A silent line changes nothing. -/
theorem read_silent (h : Silent line) : d.read line = .ok d := by
  rw [Draft.read, if_pos (silent_iff.1 h)]

/-- A line about the robot sets the pose, or is refused. -/
theorem read_robot (h : AboutRobot line) :
    d.read line = (readPose (trim line)).map fun pose => { d with pose } := by
  rw [Draft.read, if_neg (mt silent_iff.2 h.not_silent), if_pos (List.isPrefixOf_iff_prefix.2 h)]

/-- A line about a row adds the row, unless there are enough of them or it is refused. -/
theorem read_row (h : AboutRow line) :
    d.read line = if d.rows.length = height then .error .tooManyRows
      else (readRow (trim line)).map fun row => { d with rows := d.rows ++ [row] } := by
  rw [Draft.read, if_neg (mt silent_iff.2 h.1), if_neg (mt List.isPrefixOf_iff_prefix.1 h.2)]

end

/-! ## Line after line -/

/-- Lines in two parts are read one part behind the other. -/
theorem readAll_append (d : Draft) (number : Nat) (before rest : List (List Char)) :
    d.readAll number (before ++ rest) =
      d.readAll number before >>= fun d' => d'.readAll (number + before.length) rest := by
  induction before generalizing d number with
  | nil => rfl
  | cons line before ih =>
    rw [List.cons_append, Draft.readAll, Draft.readAll]
    cases d.read line with
    | error problem => rfl
    | ok next =>
      rw [List.length_cons, Nat.add_comm before.length, ← Nat.add_assoc]
      exact ih next (number + 1)

/-- Lines are refused for the first of them that the draft of those before refuses. -/
theorem exists_of_readAll_error {d : Draft} {number : Nat} {ls : List (List Char)} {e : LevelError}
    (h : d.readAll number ls = .error e) : ∃ before line after d' problem, ls = before ++ line :: after ∧
      d.readAll number before = .ok d' ∧ d'.read line = .error problem ∧ e = ⟨number + before.length, problem⟩ := by
  induction ls generalizing d number with
  | nil => nomatch h
  | cons line ls ih =>
    rw [Draft.readAll] at h
    cases hread : d.read line with
    | error problem =>
      rw [hread] at h
      exact ⟨[], line, ls, d, problem, rfl, rfl, hread, (Except.error.inj h).symm⟩
    | ok next =>
      rw [hread] at h
      obtain ⟨before, bad, after, d', problem, rfl, hbefore, hbad, rfl⟩ := ih h
      refine ⟨line :: before, bad, after, d', problem, rfl, ?_, hbad, ?_⟩
      · rw [Draft.readAll, hread]
        exact hbefore
      · rw [List.length_cons, Nat.add_right_comm, Nat.add_assoc]

/-- A draft is refused for nothing but rows that are missing. -/
theorem finish_eq_error_iff {d : Draft} {e : LevelError} :
    d.finish = .error e ↔ d.rows.length ≠ height ∧ e = ⟨0, .tooFewRows⟩ := by
  unfold Draft.finish
  split <;> simp_all [eq_comm]

section

variable {text : String} {before after : List (List Char)} {line : List Char} {d : Draft}

/-- A text is refused for a line exactly if the draft of the lines before refuses this line. -/
theorem parse_eq_error_of_lines (hlines : lines text.toList = before ++ line :: after)
    (hbefore : Draft.blank.readAll 1 before = .ok d) (problem : LevelProblem) :
    parse text = .error ⟨before.length + 1, problem⟩ ↔ d.read line = .error problem := by
  have hparse : parse text = (d.readAll (1 + before.length) (line :: after)) >>= Draft.finish := by
    rw [parse, hlines, readAll_append, hbefore]
    rfl
  rw [hparse, bind_eq_error, Draft.readAll]
  constructor
  · rintro (h | ⟨last, -, h⟩)
    · split at h
      · -- what is wrong with a later line has a later number
        obtain ⟨front, _, _, _, _, -, -, -, he⟩ := exists_of_readAll_error h
        have hline := (LevelError.mk.inj he).1
        omega
      · rename_i found hfound
        obtain rfl := (LevelError.mk.inj (Except.error.inj h)).2
        exact hfound
    · nomatch (finish_eq_error_iff.1 h).2
  · intro h
    simp [h, Nat.add_comm]

end

/-! ## The line that places the robot -/

/-- Four words place the robot at a column and a row with a heading: any first one, two numbers, and a name in letters of any
case. -/
inductive SpellsPlace : List (List Char) → Nat → Nat → Heading → Prop
  | mk {first column row name : List Char} {x y : Nat} {h : Heading} (hx : SpellsUnsigned column x)
      (hy : SpellsUnsigned row y) (hname : (String.ofList name).toLower = h.name) :
      SpellsPlace [first, column, row, name] x y h

/-- Four words place the robot on the floor. -/
def SpellsPose (ws : List (List Char)) (pose : Pose) : Prop := SpellsPlace ws pose.cell.x pose.cell.y pose.heading

/-- What is wrong with words that do not place the robot. -/
inductive RefusesPlace (ws : List (List Char)) : LevelProblem → Prop
  | misspelt (hplace : ∀ x y h, ¬ SpellsPlace ws x y h) : RefusesPlace ws .badRobotLine
  | offTheFloor {x y : Nat} {h : Heading} (hplace : SpellsPlace ws x y h) (hoff : OffFloor x y) :
      RefusesPlace ws (.robotOffTheFloor x y)

section

variable {line : List Char}

/-- A line that places the robot is read as it is spelled, if the place is on the floor. -/
theorem readPose_of_place {x y : Nat} {h : Heading} (hplace : SpellsPlace ((words line 0).map Word.text) x y h) :
    readPose line = match Cell.at? x y with
      | some cell => .ok ⟨cell, h⟩
      | none => .error (.robotOffTheFloor x y) := by
  generalize hws : (words line 0).map Word.text = ws at hplace
  obtain ⟨hx, hy, hname⟩ := hplace
  obtain ⟨v, vx, vy, vh, hvs, -, rfl, rfl, rfl⟩ : ∃ v vx vy vh, words line 0 = [v, vx, vy, vh] ∧ v.text = _ ∧ vx.text = _ ∧
      vy.text = _ ∧ vh.text = _ := by
    simpa [List.map_eq_cons_iff] using hws
  rw [readPose, hvs]
  cases hcell : Cell.at? x y <;>
    simp only [unsigned?_eq_some_iff.2 hx, unsigned?_eq_some_iff.2 hy, Word.toString, Heading.ofName?_eq_some_iff.2 hname, hcell]

/-- A line that does not spell a place for the robot is refused. -/
theorem readPose_of_no_place (hplace : ∀ x y h, ¬ SpellsPlace ((words line 0).map Word.text) x y h) :
    readPose line = .error .badRobotLine := by
  unfold readPose
  split
  · rename_i first column row name hws
    rw [hws] at hplace
    split
    · rename_i x y h hx hy hname
      exact absurd (.mk (unsigned?_eq_some_iff.1 hx) (unsigned?_eq_some_iff.1 hy) (Heading.ofName?_eq_some_iff.1 hname))
        (hplace x y h)
    · rfl
  · rfl

/-- A line places the robot exactly if its words spell a place on the floor. -/
theorem readPose_eq_ok_iff {pose : Pose} :
    readPose line = .ok pose ↔ SpellsPose ((words line 0).map Word.text) pose := by
  constructor
  · intro h
    by_cases hplace : ∃ x y k, SpellsPlace ((words line 0).map Word.text) x y k
    · obtain ⟨x, y, k, hplace⟩ := hplace
      rw [readPose_of_place hplace] at h
      cases hc : Cell.at? x y with
      | none => simp [hc] at h
      | some c =>
        obtain ⟨rfl, rfl⟩ := Cell.at?_eq_some_iff.1 hc
        simp only [hc, Except.ok.injEq] at h
        rwa [← h, SpellsPose]
    · rw [readPose_of_no_place (by simpa using hplace)] at h
      nomatch h
  · intro hpose
    rw [readPose_of_place hpose, Cell.at?_self]

/-- Otherwise it is refused for its words, or for a place that is off the floor. -/
theorem readPose_eq_error_iff {problem : LevelProblem} :
    readPose line = .error problem ↔ RefusesPlace ((words line 0).map Word.text) problem := by
  constructor
  · intro h
    by_cases hplace : ∃ x y k, SpellsPlace ((words line 0).map Word.text) x y k
    · obtain ⟨x, y, k, hplace⟩ := hplace
      rw [readPose_of_place hplace] at h
      cases hc : Cell.at? x y with
      | none =>
        simp only [hc, Except.error.injEq] at h
        exact h ▸ .offTheFloor hplace (Cell.at?_eq_none_iff_offFloor.1 hc)
      | some c => simp [hc] at h
    · have hnone : ∀ x y k, ¬ SpellsPlace ((words line 0).map Word.text) x y k := by simpa using hplace
      rw [readPose_of_no_place hnone] at h
      exact Except.error.inj h ▸ .misspelt hnone
  · rintro (hnone | ⟨hplace, hoff⟩)
    · exact readPose_of_no_place hnone
    · rw [readPose_of_place hplace, Cell.at?_eq_none_iff_offFloor.2 hoff]

end

theorem consWord_eq_cons (c : Char) (start : Nat) (ws : List Word) :
    ∃ w rest, consWord c start ws = w :: rest ∧ w.start = start ∧ [c] <+: w.text := by
  unfold consWord
  split
  · exact ⟨_, _, rfl, rfl, List.prefix_rfl⟩
  · split <;> exact ⟨_, _, rfl, rfl, by simp⟩

/-- A solid text in front is the beginning of the first word. -/
theorem words_of_solid_prefix {front : List Char} (h : Solid front) (rest : List Char) (start : Nat) :
    ∃ w ws, words (front ++ rest) start = w :: ws ∧ w.start = start ∧ front <+: w.text := by
  induction front generalizing start with
  | nil => exact absurd rfl h.some
  | cons c front ih =>
    obtain ⟨hc, hfront⟩ := h.cons
    rw [List.cons_append, words, hc, if_neg Bool.false_ne_true]
    rcases hfront with rfl | hfront
    · exact consWord_eq_cons c start _
    · obtain ⟨w, ws, hws, hstart, hprefix⟩ := ih hfront (start + c.utf8Size)
      rw [hws, consWord, if_pos hstart]
      exact ⟨_, _, rfl, rfl, List.cons_prefix_cons.2 ⟨rfl, hprefix⟩⟩

/-- The first word of a line about the robot begins with the letters of `robot`. -/
theorem AboutRobot.wordsOf_eq_cons {line : List Char} (h : AboutRobot line) :
    ∃ first rest, wordsOf line = first :: rest ∧ "robot".toList <+: first := by
  obtain ⟨rest, hrest⟩ := h
  have hsolid : Solid "robot".toList := Solid.of_all (by decide)
  obtain ⟨w, ws, hws, -, hfirst⟩ := words_of_solid_prefix hsolid rest 0
  rw [wordsOf, ← hrest, hws]
  exact ⟨w.text, ws.map Word.text, rfl, hfirst⟩

/-- A line about the robot, behind lines that are fine, is accepted exactly if it has four words, of which the second and the third
are decimal numerals below ten and the fourth is the name of a heading in letters of any case. It then says where the robot is.
Otherwise the text is refused for this line: for its words, or for a place that is off the floor. The first word is only known to
begin with `robot`: a line with the four words is accepted whatever follows these letters in the first. -/
theorem robot_line_accepted_iff {text : String} {before : List (List Char)} {line : List Char} {after : List (List Char)}
    {d : Draft} (hlines : lines text.toList = before ++ line :: after) (hbefore : Draft.blank.readAll 1 before = .ok d)
    (hrobot : AboutRobot line) :
    ((∀ e, parse text = .error e → e.line ≠ before.length + 1) ↔ ∃ pose, SpellsPose (wordsOf line) pose) ∧
      (∀ pose, SpellsPose (wordsOf line) pose → Draft.blank.readAll 1 (before ++ [line]) = .ok { d with pose }) ∧
      (∀ problem, parse text = .error ⟨before.length + 1, problem⟩ ↔ RefusesPlace (wordsOf line) problem) ∧
      ∃ first rest, wordsOf line = first :: rest ∧ "robot".toList <+: first := by
  have haccept : ∀ pose, readPose (trim line) = .ok pose ↔ SpellsPose (wordsOf line) pose := fun pose => readPose_eq_ok_iff
  have hrefuse : ∀ problem, parse text = .error ⟨before.length + 1, problem⟩ ↔ readPose (trim line) = .error problem := by
    intro problem
    rw [parse_eq_error_of_lines hlines hbefore, read_robot hrobot, map_eq_error]
  refine ⟨?_, ?_, ?_, hrobot.wordsOf_eq_cons⟩
  · simp only [← haccept]
    cases hread : readPose (trim line) with
    | ok pose =>
      refine iff_of_true ?_ ⟨pose, rfl⟩
      rintro ⟨_, problem⟩ he rfl
      nomatch hread.symm.trans ((hrefuse problem).1 he)
    | error problem =>
      refine iff_of_false ?_ nofun
      intro h
      exact h _ ((hrefuse problem).2 hread) rfl
  · intro pose hpose
    rw [readAll_append, hbefore]
    change Draft.readAll d _ [line] = _
    rw [Draft.readAll, read_robot hrobot, (haccept pose).2 hpose]
    rfl
  · intro problem
    rw [hrefuse, readPose_eq_error_iff]
    rfl

/-- Behind a remark, with blanks around it, a plus sign, a leading zero and a capital letter. -/
theorem robot_line_accepted_iff_of_remark :
    AboutRobot " robot 3 +04 West ".toList ∧
      ∀ e, parse "# no rows\n robot 3 +04 West \n" = .error e → e.line ≠ 2 := by
  have hrobot : AboutRobot " robot 3 +04 West ".toList := by decide
  have hlines : lines "# no rows\n robot 3 +04 West \n".toList =
      ["# no rows".toList] ++ " robot 3 +04 West ".toList :: [] := by decide
  have hpose : SpellsPose (wordsOf " robot 3 +04 West ".toList) ⟨⟨3, 4⟩, .west⟩ :=
    .mk (unsigned?_eq_some_iff.1 (by decide)) (unsigned?_eq_some_iff.1 (by decide)) (toLower_eq_iff.2 (by decide))
  exact ⟨hrobot, (robot_line_accepted_iff hlines rfl hrobot).1.2 ⟨_, hpose⟩⟩

/-- A line whose first word is not `robot`, but a longer one that begins with these letters, places the robot. -/
theorem robot_line_of_longer_word :
    AboutRobot "robotx 1 2 east".toList ∧ (wordsOf "robotx 1 2 east".toList).head? ≠ some "robot".toList ∧
      ∃ w, parse (String.join (("robotx 1 2 east" :: List.replicate 10 "0 0 0 0 0 0 0 0 0 0").map (· ++ "\n"))) = .ok w ∧
        w.robot = ⟨1, 2⟩ ∧ w.heading = .east := by
  have hrobot : AboutRobot "robotx 1 2 east".toList := by decide
  have hpose : SpellsPose (wordsOf "robotx 1 2 east".toList) ⟨⟨1, 2⟩, .east⟩ :=
    .mk (unsigned?_eq_some_iff.1 (by decide)) (unsigned?_eq_some_iff.1 (by decide)) (toLower_eq_iff.2 (by decide))
  have hlines : lines (joinRows ("robotx 1 2 east".toList :: List.replicate 10 "0 0 0 0 0 0 0 0 0 0".toList)) =
      "robotx 1 2 east".toList :: List.replicate 10 "0 0 0 0 0 0 0 0 0 0".toList := by decide +kernel
  have hrows : Draft.readAll ⟨[], ⟨⟨1, 2⟩, .east⟩⟩ 2 (List.replicate 10 "0 0 0 0 0 0 0 0 0 0".toList) =
      .ok ⟨List.replicate 10 (Vector.replicate 10 ⟨0, false⟩), ⟨⟨1, 2⟩, .east⟩⟩ := by decide +kernel
  refine ⟨hrobot, by decide, ?_⟩
  rw [parse, toList_join_rows, List.map_cons, List.map_replicate, hlines, Draft.readAll, read_robot hrobot,
    readPose_eq_ok_iff.2 hpose]
  change ∃ w, Draft.readAll ⟨[], ⟨⟨1, 2⟩, .east⟩⟩ 2 _ >>= Draft.finish = .ok w ∧ _
  rw [hrows]
  exact ⟨_, rfl, rfl, rfl⟩

end Level

end GridRobot
