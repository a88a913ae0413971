import GridRobot.Program

/-!
# Linkage

Commands are known by symbols, which are numbers. A call may name a command that is declared further down, so each call is
recorded at the address of its word, and patched when every declaration has been seen. Of two references at one address the later
one counts, and of two declarations of one symbol the earlier one.
-/

namespace GridRobot

/-- A word that is to be patched with the address of a symbol; the position is that of the call in the text. -/
structure Reference where
  address : Nat
  position : Nat
  symbol : Nat
  deriving DecidableEq, Repr

/-- The symbols declared so far with their addresses, in order, and the references recorded so far by address. -/
structure Linkage where
  declared : List (Nat × Nat)
  references : List Reference
  deriving DecidableEq, Repr

namespace Linkage

/-- Nothing declared and nothing recorded. -/
def empty : Linkage := ⟨[], []⟩

/-- The address of a symbol. -/
def get? (l : Linkage) (symbol : Nat) : Option Nat := l.declared.lookup symbol

/-- The symbol declared first, with its address. -/
def first? (l : Linkage) : Option (Nat × Nat) := l.declared.head?

/-- Declares a symbol, if it is not declared yet. -/
def declare (l : Linkage) (symbol address : Nat) : Option Linkage :=
  if (l.get? symbol).isSome then none else some { l with declared := l.declared ++ [(symbol, address)] }

/-- Puts a reference among others that are in the order of their addresses, in place of one at the same address. -/
def insertReference (r : Reference) : List Reference → List Reference
  | [] => [r]
  | s :: rest =>
    if r.address < s.address then r :: s :: rest
    else if r.address = s.address then r :: rest
    else s :: insertReference r rest

/-- Records a reference. -/
def record (l : Linkage) (address position symbol : Nat) : Linkage :=
  { l with references := insertReference ⟨address, position, symbol⟩ l.references }

/-- Patches a program reference by reference, up to the first one whose symbol has no address. -/
def patchAll (address? : Nat → Option Nat) (spelling? : Nat → Option String) (p : Program) :
    List Reference → Program × Option SourceError
  | [] => (p, none)
  | r :: rest =>
    match address? r.symbol with
    | some target => patchAll address? spelling? (p.patch r.address target) rest
    | none => (p, some ⟨.undefinedCommand ((spelling? r.symbol).getD "?"), r.position⟩)

/-- Patches the recorded references of a program, and forgets them. -/
def link (l : Linkage) (spelling? : Nat → Option String) (p : Program) : Linkage × Program × Option SourceError :=
  ({ l with references := [] }, patchAll l.get? spelling? p l.references)

end Linkage

end GridRobot
