import GridRobot.Language.Tree
import GridRobot.Program

/-!
# Code

The instructions of conditions, statements and commands. A condition leaves its value on the condition stack. A statement goes on
behind its last instruction. Jumps are to addresses, so the code of a statement depends on where it begins; its size does not. Words
that no line stands for belong to the flow of control alone.
-/

namespace GridRobot

/-- The number of instructions of a condition. -/
def Condition.size : Condition → Nat
  | sense _ _ => 1
  | not c _ => c.size + 1
  | and left right _ | or left right _ => left.size + right.size + 1

/-- The instructions of a condition. -/
def Condition.code : Condition → List Instruction
  | sense s line => [.of (.sense s) line]
  | not c line => c.code ++ [.of .not line]
  | and left right line => left.code ++ right.code ++ [.of .and line]
  | or left right line => left.code ++ right.code ++ [.of .or line]

theorem Condition.length_code (c : Condition) : c.code.length = c.size := by
  induction c with
  | sense => rfl
  | not c _ ih => simp [code, size, ih]
  | and l r _ ihl ihr => simp [code, size, ihl, ihr, Nat.add_assoc]
  | or l r _ ihl ihr => simp [code, size, ihl, ihr, Nat.add_assoc]

/-- The number of instructions of a statement. -/
def Statement.size : Statement → Nat
  | nothing => 0
  | andThen first rest => first.size + rest.size
  | act _ _ | call _ _ _ => 1
  | ifThen test _ body => test.size + 1 + body.size
  | ifElse test _ body otherwise => test.size + 1 + body.size + 1 + otherwise.size
  | whileDo test _ body => test.size + 1 + body.size + 1
  | repeatTimes _ _ body _ => 1 + body.size + 1

/-- The instructions of a statement that begins at an address, given the addresses of the commands. -/
def Statement.code (address : String → Nat) (start : Nat) : Statement → List Instruction
  | nothing => []
  | andThen first rest => first.code address start ++ rest.code address (start + first.size)
  | act a line => [.of (.act a) line]
  | call name line _ => [.of (.call (address name)) line]
  | ifThen test line body =>
    let inner := start + test.size + 1
    test.code ++ .of (.jumpUnless (inner + body.size)) line :: body.code address inner
  | ifElse test line body otherwise =>
    let inner := start + test.size + 1
    let other := inner + body.size + 1
    test.code ++ .of (.jumpUnless other) line :: body.code address inner ++
      .of (.jump (other + otherwise.size)) 0 :: otherwise.code address other
  | whileDo test line body =>
    let inner := start + test.size + 1
    test.code ++ .of (.jumpUnless (inner + body.size + 1)) line :: body.code address inner ++ [.of (.jump start) 0]
  | repeatTimes count line body closing =>
    .of (.push count) line :: body.code address (start + 1) ++ [.of (.loop start) closing]

theorem Statement.length_code (address : String → Nat) (s : Statement) :
    ∀ start, (s.code address start).length = s.size := by
  induction s with
  | nothing => intro _; rfl
  | andThen first rest ih₁ ih₂ => intro start; simp [code, size, ih₁, ih₂]
  | act => intro _; rfl
  | call => intro _; rfl
  | ifThen test line body ih =>
    intro start
    simp only [code, size, List.length_append, List.length_cons, Condition.length_code, ih]
    omega
  | ifElse test line body otherwise ih₁ ih₂ =>
    intro start
    simp only [code, size, List.length_append, List.length_cons, Condition.length_code, ih₁, ih₂]
    omega
  | whileDo test line body ih =>
    intro start
    simp only [code, size, List.length_append, List.length_cons, List.length_nil, Condition.length_code, ih]
    omega
  | repeatTimes count line body closing ih =>
    intro start
    simp only [code, size, List.length_append, List.length_cons, List.length_nil, ih]
    omega

namespace Declaration

/-- The number of instructions of a command: its body and a return. -/
def size (d : Declaration) : Nat := d.body.size + 1

/-- The instructions of a command that begins at an address. -/
def code (address : String → Nat) (start : Nat) (d : Declaration) : List Instruction :=
  d.body.code address start ++ [.of .ret d.closing]

/-- The commands with their addresses, one behind the other from an address on. -/
def layout (start : Nat) : List Declaration → List (String × Nat)
  | [] => []
  | d :: rest => (d.name, start) :: layout (start + d.size) rest

/-- The instructions of commands, one behind the other from an address on. -/
def codeAll (address : String → Nat) (start : Nat) : List Declaration → List Instruction
  | [] => []
  | d :: rest => d.code address start ++ codeAll address (start + d.size) rest

end Declaration

end GridRobot
