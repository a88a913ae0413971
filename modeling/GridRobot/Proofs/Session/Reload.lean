import GridRobot.Proofs.Machine.Rewinding
import GridRobot.Proofs.Results
import GridRobot.Session

/-!
# Reading the files again

At any point of a session, reading the files again comes to what opening a session from them would: either something is wrong with
a file, and then the session stays as it is and says what is said where none can be opened, or it becomes the session that would be
opened (`reload_is_restart`). The ways there differ: opening makes a machine, reading again gives the machine that is there first
the program and then the world. They meet because whatever is typed, the machine is rewound to the start of some program in some
world, within the limits of every session (`Ready`).
-/

namespace GridRobot

namespace Session

variable {o : Options} {files : FileReader} {s s' : Session}

/-! ## Broken files -/

/-- The program file cannot be read, or no program can be made of its text. -/
def ProgramBroken (o : Options) (files : FileReader) : Prop :=
  (∃ e, files o.file = .error e) ∨ ∃ source e, files o.file = .ok source ∧ build o source = .error e

/-- There is a level file, and it cannot be read, or its text is no level. -/
def LevelBroken (o : Options) (files : FileReader) : Prop :=
  ∃ name, o.level = some name ∧
    ((∃ e, files name = .error e) ∨ ∃ text e, files name = .ok text ∧ Level.parse text = .error e)

/-- Something is wrong with a file that the options name. -/
def Broken (o : Options) (files : FileReader) : Prop := ProgramBroken o files ∨ LevelBroken o files

/-- A program cannot be loaded exactly if its file or its text is broken. -/
theorem exists_loadProgram_eq_error_iff : (∃ message, loadProgram o files = .error message) ↔ ProgramBroken o files := by
  unfold loadProgram readFile ProgramBroken
  simp only [exists_bind_eq_error_iff, exists_mapError_eq_error_iff, mapError_eq_ok, exists_pure_eq_error_iff, and_false,
    exists_false, or_false, exists_and_left]

/-- A world cannot be loaded exactly if its file or its level is broken. -/
theorem exists_loadWorld_eq_error_iff : (∃ message, loadWorld o files = .error message) ↔ LevelBroken o files := by
  unfold loadWorld readFile LevelBroken
  cases o.level with
  | some name =>
    simp only [exists_bind_eq_error_iff, exists_mapError_eq_error_iff, mapError_eq_ok, exists_and_left, Option.some.injEq,
      exists_eq_left']
  | none =>
    -- Nothing can go wrong with a world that is scattered or empty.
    cases o.random <;> simp

/-! ## What the files give -/

/-- The session that begins with the files as they are, or what is wrong with them. -/
def fromFiles (o : Options) (files : FileReader) : Except String Session := do
  let (source, program) ← loadProgram o files
  let world ← loadWorld o files
  return start o source program world

/-- A session cannot be made from files exactly if one of them is broken. -/
theorem exists_fromFiles_eq_error_iff : (∃ message, fromFiles o files = .error message) ↔ Broken o files := by
  unfold fromFiles Broken
  simp only [exists_bind_eq_error_iff, exists_loadProgram_eq_error_iff, exists_loadWorld_eq_error_iff, exists_pure_eq_error_iff,
    and_false, exists_false, or_false]
  constructor
  · rintro (h | ⟨_, -, h⟩)
    · exact .inl h
    · exact .inr h
  · rintro (h | h)
    · exact .inl h
    · by_cases hprogram : ProgramBroken o files
      · exact .inl hprogram
      · rw [← exists_loadProgram_eq_error_iff, ← exists_eq_ok_iff] at hprogram
        obtain ⟨read, hread⟩ := hprogram
        exact .inr ⟨read, hread, h⟩

/-- Unless the listing is wanted, a session is opened from what the files give. -/
theorem openWith_eq (h : o.list = false) :
    openWith o files =
      match fromFiles o files with
      | .error message => .failed message
      | .ok fresh => .session fresh := by
  unfold openWith fromFiles
  rw [h]
  cases loadProgram o files with
  | error message => rfl
  | ok read =>
    cases loadWorld o files with
    | error message => rfl
    | ok world => rfl

/-! ## Points of a session -/

/-- The session comes of one that was opened with these options: of typed lines, between which the files may have changed, and of
runs that were interrupted behind some step. -/
inductive Reachable (o : Options) : Session → Prop
  | opened {files : FileReader} {s : Session} (h : openWith o files = .session s) : Reachable o s
  | answered {files : FileReader} {batches : Nat} {line text : String} {s s' : Session} (hs : Reachable o s)
      (h : s.answer files batches line = .report text s') : Reachable o s'
  | interrupted {s : Session} (hs : Reachable o s) (n : Nat) : Reachable o { s with machine := s.machine.after n }

/-- What reading the files again relies on: the session has the options that it was opened with, by which it was not the listing
that was wanted, and its machine is rewound to the start of some program in some world, within the limits of every session. -/
structure Ready (o : Options) (s : Session) : Prop where
  options_eq : s.options = o
  list_eq : o.list = false
  rewinds : ∃ p w, s.machine.reset = Machine.start p w .standard

/-- Reading the files again gives what the files give, or leaves the session as it is. -/
theorem Ready.reload_eq (h : s.Ready o) :
    s.reload files =
      match fromFiles o files with
      | .error message => (message ++ "\n", s)
      | .ok fresh => ("", fresh) := by
  obtain ⟨rfl, -, p, w, hreset⟩ := h
  unfold reload fromFiles
  cases loadProgram s.options files with
  | error message => rfl
  | ok read =>
    obtain ⟨source, program⟩ := read
    cases loadWorld s.options files with
    | error message => rfl
    | ok world =>
      have hload := Machine.load_eq_start hreset program
      have hmachine : (s.machine.load program).setWorld world = Machine.start program world .standard :=
        Machine.setWorld_eq_start (congrArg Machine.reset hload) world
      exact congrArg (fun m => ("", (⟨s.options, source, m⟩ : Session))) hmachine

/-- What is made from files is ready. -/
theorem Ready.of_fromFiles (hlist : o.list = false) (h : fromFiles o files = .ok s) : s.Ready o := by
  obtain ⟨⟨source, program⟩, -, h⟩ := bind_eq_ok.1 h
  obtain ⟨world, -, h⟩ := bind_eq_ok.1 h
  obtain rfl := Except.ok.inj h
  exact ⟨rfl, hlist, program, world, rfl⟩

/-- What is opened is ready. -/
theorem Ready.of_openWith (h : openWith o files = .session s) : s.Ready o := by
  cases hlist : o.list with
  | true =>
    unfold openWith at h
    rw [hlist] at h
    split at h <;> nomatch h
  | false =>
    rw [openWith_eq hlist] at h
    split at h
    · nomatch h
    · rename_i fresh hfresh
      obtain rfl := Opening.session.inj h
      exact .of_fromFiles hlist hfresh

/-- The machine may go on as long as it is rewound to the same. -/
theorem Ready.withMachine (h : s.Ready o) {m : Machine} (hm : m.reset = s.machine.reset) :
    Ready o { s with machine := m } := by
  obtain ⟨p, w, hreset⟩ := h.rewinds
  exact ⟨h.options_eq, h.list_eq, p, w, hm.trans hreset⟩

/-- A session stays ready when it is loaded again, whether this succeeds or not. -/
theorem Ready.reload (h : s.Ready o) (files : FileReader) : (s.reload files).2.Ready o := by
  rw [h.reload_eq]
  cases hfresh : fromFiles o files with
  | error message => exact h
  | ok fresh => exact .of_fromFiles h.list_eq hfresh

/-- However a run ends, the machine is rewound to the same as before. The induction is on the batches. -/
theorem advance_reset {goal : Goal} {cycles batches : Nat} {m : Machine} {result : String × Machine}
    (h : advance goal cycles batches m = some result) : result.2.reset = m.reset := by
  induction batches generalizing m with
  | zero => nomatch h
  | succ batches ih =>
    have hbatch := m.execute_reset false cycles
    unfold advance at h
    split at h <;> rename_i hrun <;> rw [hrun] at hbatch
    case h_1 => exact (ih h).trans hbatch
    case h_2 =>
      cases goal with
      | pause =>
        obtain rfl := Option.some.inj h
        exact hbatch
      | finish => exact (ih h).trans hbatch
    all_goals
      obtain rfl := Option.some.inj h
      exact hbatch

/-- Stepping by instructions does not change the rewound machine. -/
theorem instruction_reset (m : Machine) : (instruction m).2.reset = m.reset := by
  have hstep := m.step_reset
  unfold instruction
  split <;> rename_i hm <;> rw [hm] at hstep <;> exact hstep

/-- A session stays ready when it performs a command. -/
theorem Ready.perform {batches : Nat} {c : Command} {text : String} (hs : s.Ready o)
    (h : s.perform files batches c = .report text s') : s'.Ready o := by
  cases c with
  | run goal =>
    simp only [Session.perform] at h
    split at h
    · rename_i result hrun
      obtain ⟨-, rfl⟩ := Answer.report.inj h
      exact hs.withMachine (advance_reset hrun)
    · nomatch h
  | instruction =>
    obtain ⟨-, rfl⟩ := Answer.report.inj h
    exact hs.withMachine (instruction_reset s.machine)
  | reset =>
    obtain ⟨-, rfl⟩ := Answer.report.inj h
    exact hs.withMachine rfl
  | reload =>
    obtain ⟨-, rfl⟩ := Answer.report.inj h
    exact hs.reload files
  | list | world | help | unknown =>
    obtain ⟨-, rfl⟩ := Answer.report.inj h
    exact hs
  | quit => nomatch h

/-- A session stays ready when it answers a line. -/
theorem Ready.answer {batches : Nat} {line text : String} (hs : s.Ready o)
    (h : s.answer files batches line = .report text s') : s'.Ready o := by
  unfold Session.answer at h
  split at h
  · rename_i hperform
    obtain ⟨-, rfl⟩ := Answer.report.inj h
    exact hs.perform hperform
  · rename_i hother
    exact absurd h (hother _ _)

/-- Whatever a session has been asked, it is ready. -/
theorem Reachable.ready (h : s.Reachable o) : s.Ready o := by
  induction h with
  | opened h => exact .of_openWith h
  | answered _ h ih => exact ih.answer h
  | interrupted _ n ih => exact ih.withMachine (Machine.after_reset _ n)

/-- Reading the files again is all or nothing and comes to a new start, at any point of a session and whatever has become of the
files. If one of them is broken then no session can be opened from them; the session stays as it is, and its report is what is said
then. If none is then it becomes the very session that is opened from them, with nothing to report. -/
theorem reload_is_restart {o : Options} {s : Session} (h : s.Reachable o) (files : FileReader) :
    (Broken o files → ∃ message, openWith o files = .failed message ∧ s.reload files = (message ++ "\n", s) ∧
        message ++ "\n" ≠ "") ∧
      (¬ Broken o files → ∃ fresh, openWith o files = .session fresh ∧ s.reload files = ("", fresh)) := by
  have hready := h.ready
  constructor
  · intro hbroken
    obtain ⟨message, hmessage⟩ := exists_fromFiles_eq_error_iff.2 hbroken
    refine ⟨message, ?_, ?_, ?_⟩
    · rw [openWith_eq hready.list_eq, hmessage]
    · rw [hready.reload_eq, hmessage]
    · simp
  · intro hwhole
    rw [← exists_fromFiles_eq_error_iff, ← exists_eq_ok_iff] at hwhole
    obtain ⟨fresh, hfresh⟩ := hwhole
    refine ⟨fresh, ?_, ?_⟩
    · rw [openWith_eq hready.list_eq, hfresh]
    · rw [hready.reload_eq, hfresh]

/-- A program without instructions that has run to its end. When its file is gone the session stays as it is, ended; when it is back
the session is at the start again. -/
theorem reload_is_restart_of_lost_program :
    ∃ (o : Options) (files : FileReader) (fresh s : Session) (text : String),
      openWith o files = .session fresh ∧ fresh.answer files 0 "i" = .report text s ∧ s.machine.halted = true ∧
        s.reload (fun _ => .error "gone") = ("program: gone\n", s) ∧ s.reload files = ("", fresh) := by
  let o : Options := ⟨"program", true, none, none, 0.25, none, false, 5000⟩
  let files : FileReader := fun _ => .ok ""
  have hassemble : assemble "" = .ok Program.empty := rfl
  let fresh := start o "" Program.empty World.empty
  have hopen : openWith o files = .session fresh := rfl
  let s : Session := { fresh with machine := (instruction fresh.machine).2 }
  have hline : Command.ofLine "i" = .instruction := by decide +kernel
  have hanswer : fresh.answer files 0 "i" = .report ((instruction fresh.machine).1 ++ s.status) s := by
    simp only [answer, hline]
    rfl
  have hfirst : Program.empty.get? 0 = some .blank := by simp [Program.get?, Program.empty, memorySize]
  have hdecode : Instruction.blank.decode = some .ret := by decide
  have hhalted : s.machine.halted = true := by
    simp [s, fresh, instruction, start, Machine.step, Machine.start, hfirst, Machine.retire, hdecode, Machine.perform,
      Machine.goBack, Stack.isEmpty, Stack.empty, memorySize, Machine.report]
  have hreach : s.Reachable o := .answered (.opened hopen) hanswer
  refine ⟨o, files, fresh, s, _, hopen, hanswer, hhalted, ?_, ?_⟩
  · obtain ⟨message, hfailed, hreload, -⟩ := (reload_is_restart hreach fun _ => .error "gone").1 (.inl (.inl ⟨"gone", rfl⟩))
    have hmessage : "program: gone" = message := Opening.failed.inj hfailed
    rw [hreload, ← hmessage]
    rfl
  · have hwhole : ¬ Broken o files := by
      simp [Broken, ProgramBroken, LevelBroken, files, o, build, hassemble]
    obtain ⟨again, hagain, hreload⟩ := (reload_is_restart hreach files).2 hwhole
    rw [hreload, Opening.session.inj (hagain.symm.trans hopen)]

end Session

end GridRobot
