import GridRobot.Language.Compiler
import GridRobot.Proofs.Language.Completeness
import GridRobot.Proofs.Language.Meaning
import GridRobot.Proofs.Program.Memory
import GridRobot.Proofs.Results

/-!
# The layout of a compiled program

The code of the commands lies in memory behind the two words in front of it, in the order of the text. Each command is found
where the layout says, and every command that is called has a place there.
-/

namespace GridRobot

/-! ## Where commands lie -/

namespace Declaration

/-- The code of a command is as long as its size says. -/
theorem length_code (address : String → Nat) (start : Nat) (d : Declaration) :
    (d.code address start).length = d.size := by
  simp [code, size, Statement.length_code]

/-- The code of commands is as long as their sizes say. -/
theorem length_codeAll (address : String → Nat) (start : Nat) (ds : List Declaration) :
    (codeAll address start ds).length = sizeAll ds := by
  induction ds generalizing start with
  | nil => rfl
  | cons d rest ih => simp [codeAll, sizeAll, length_code, ih]

/-- The layout has the names in the order of the text. -/
theorem names_layout (start : Nat) (ds : List Declaration) : (layout start ds).map (·.1) = ds.map (·.name) := by
  induction ds generalizing start with
  | nil => rfl
  | cons d rest ih => simp [layout, ih]

theorem of_find? {ds : List Declaration} {name : String} {d : Declaration}
    (h : ds.find? (fun d => d.name == name) = some d) : d ∈ ds ∧ d.name = name := by
  have hname := List.find?_some h
  exact ⟨List.mem_of_find?_eq_some h, beq_iff_eq.1 hname⟩

/-- A name is found in the layout with the first command that has it, behind those that are declared before. -/
theorem lookup_layout {start a : Nat} {ds : List Declaration} {name : String}
    (h : (layout start ds).lookup name = some a) :
    ∃ before d after, ds = before ++ d :: after ∧ ds.find? (fun d => d.name == name) = some d ∧
      a = start + sizeAll before := by
  induction ds generalizing start with
  | nil => nomatch h
  | cons d rest ih =>
    rw [layout, List.lookup_cons] at h
    split at h
    · rename_i hn
      obtain rfl := Option.some.inj h
      refine ⟨[], d, rest, rfl, ?_, rfl⟩
      exact List.find?_cons_of_pos (beq_iff_eq.2 (beq_iff_eq.1 hn).symm)
    · rename_i hn
      obtain ⟨before, d', after, rfl, hfind, rfl⟩ := ih h
      refine ⟨d :: before, d', after, rfl, ?_, by simp [sizeAll, Nat.add_assoc]⟩
      rw [← hfind]
      exact List.find?_cons_of_neg (fun hd => beq_eq_false_iff_ne.1 hn (beq_iff_eq.1 hd).symm)

/-- Every name of a command is found in the layout. -/
theorem exists_lookup_layout (start : Nat) {ds : List Declaration} {name : String} (h : name ∈ ds.map (·.name)) :
    ∃ a, (layout start ds).lookup name = some a := by
  rw [← names_layout start] at h
  obtain ⟨c, hc, rfl⟩ := List.mem_map.1 h
  exact Option.isSome_iff_exists.1 (List.lookup_isSome_iff.2 ⟨c, hc, beq_self_eq_true _⟩)

/-- The code of commands in two parts is that of both, the second behind the first. -/
theorem codeAll_append (address : String → Nat) (start : Nat) (ds es : List Declaration) :
    codeAll address start (ds ++ es) =
      codeAll address start ds ++ codeAll address (start + sizeAll ds) es := by
  induction ds generalizing start with
  | nil => rfl
  | cons d rest ih => simp [codeAll, sizeAll, ih, Nat.add_assoc]

end Declaration

namespace Compiler

/-- The address that calls of a name go to. -/
def addressIn (ds : List Declaration) (name : String) : Nat :=
  ((Declaration.layout Parser.headerSize ds).lookup name).getD 0

/-- All instructions of a program with its entry. -/
def codeOf (ds : List Declaration) (entry : Option Nat) : List Instruction :=
  header entry ++ Declaration.codeAll (addressIn ds) Parser.headerSize ds

theorem length_header (entry : Option Nat) : (header entry).length = 2 := by
  cases entry <;> rfl

/-- Two words are in front of the commands. -/
theorem length_codeOf (ds : List Declaration) (entry : Option Nat) :
    (codeOf ds entry).length = 2 + Declaration.sizeAll ds := by
  rw [codeOf, List.length_append, length_header, Declaration.length_codeAll]

/-- A name that is found in the layout is declared, and calls of it go there. -/
theorem addressIn_of_lookup {ds : List Declaration} {name : String} {a : Nat}
    (h : (Declaration.layout Parser.headerSize ds).lookup name = some a) :
    addressIn ds name = a ∧ ∃ d, ds.find? (fun d => d.name == name) = some d ∧ d ∈ ds ∧ d.name = name := by
  obtain ⟨before, d, after, hds, hd, -⟩ := Declaration.lookup_layout h
  exact ⟨by rw [addressIn, h, Option.getD_some], d, hd, Declaration.of_find? hd⟩

/-- The entry is the address of the command that the program is entered with. -/
theorem entryAddress_eq_ok {ds : List Declaration} {asked : Option String} {e : Option Nat}
    (h : entryAddress (Declaration.layout Parser.headerSize ds) asked = .ok e) :
    e = (Declaration.entryIn ds asked).map (addressIn ds) ∧
      ∀ name, Declaration.entryIn ds asked = some name → name ∈ ds.map (·.name) := by
  cases asked with
  | some name =>
    simp only [entryAddress] at h
    split at h
    · rename_i a ha
      obtain rfl := Except.ok.inj h
      obtain ⟨rfl, d, -, hd⟩ := addressIn_of_lookup ha
      refine ⟨rfl, ?_⟩
      intro name' hn
      obtain rfl : name = name' := Option.some.inj hn
      exact List.mem_map.2 ⟨d, hd⟩
    · nomatch h
  | none =>
    obtain rfl := Except.ok.inj h
    unfold Declaration.entryIn
    cases hmain : (Declaration.layout Parser.headerSize ds).lookup "main" with
    | some a =>
      obtain ⟨rfl, d, hfind, hmem, hname⟩ := addressIn_of_lookup hmain
      rw [hfind]
      refine ⟨congrArg (fun n => some (addressIn ds n)) hname.symm, ?_⟩
      intro name hn
      obtain rfl : d.name = name := Option.some.inj hn
      exact List.mem_map.2 ⟨d, hmem, rfl⟩
    | none =>
      have hfind : ds.find? (fun d => d.name == "main") = none := by
        rw [List.find?_eq_none]
        intro d hd hname
        obtain ⟨a, ha⟩ := Declaration.exists_lookup_layout Parser.headerSize (List.mem_map.2 ⟨d, hd, rfl⟩)
        rw [beq_iff_eq.1 hname, hmain] at ha
        nomatch ha
      rw [hfind]
      cases ds with
      | nil => exact ⟨rfl, nofun⟩
      | cons d rest =>
        refine ⟨?_, ?_⟩
        · simp [Declaration.layout, addressIn]
        · intro name hn
          obtain rfl : d.name = name := Option.some.inj hn
          exact List.mem_cons_self

/-- There is no undefined call exactly if every command that is called is declared. -/
theorem undefinedCall?_eq_none {ds : List Declaration} :
    undefinedCall? ds = none ↔ ∀ d ∈ ds, ∀ c ∈ d.body.calls, c.1 ∈ ds.map (·.name) := by
  unfold undefinedCall?
  rw [List.find?_eq_none]
  constructor
  · intro h d hd c hc
    have hc' := h c (List.mem_flatMap.2 ⟨d, hd, hc⟩)
    rw [Bool.not_eq_true', Bool.not_eq_false] at hc'
    obtain ⟨d', hd', hn⟩ := List.any_eq_true.1 hc'
    exact List.mem_map.2 ⟨d', hd', beq_iff_eq.1 hn⟩
  · intro h c hc
    obtain ⟨d, hd, hc⟩ := List.mem_flatMap.1 hc
    obtain ⟨d', hd', hn⟩ := List.mem_map.1 (h d hd c hc)
    have : ds.any (fun d => d.name == c.1) = true := List.any_eq_true.2 ⟨d', hd', beq_iff_eq.2 hn⟩
    simp [this]

/-- The program of declarations: calls are to declared commands, and the rest is put into memory as it stands. -/
theorem assembleAll_eq_ok {ds : List Declaration} {entry : Option String} {p : Program} :
    assembleAll ds entry = .ok p ↔ undefinedCall? ds = none ∧
      ∃ e, entryAddress (Declaration.layout Parser.headerSize ds) entry = .ok e ∧
        ∃ q, Program.empty.pushAll (codeOf ds e) = .ok q ∧
          p = { q with entry := e.getD 0, commands := Declaration.layout Parser.headerSize ds } := by
  unfold assembleAll
  cases undefinedCall? ds with
  | some c =>
    constructor
    · intro h
      cases h
    · rintro ⟨h, -⟩
      cases h
  | none =>
    refine bind_eq_ok.trans ?_
    constructor
    · rintro ⟨e, he, h⟩
      obtain ⟨q, hq, h⟩ := bind_eq_ok.1 h
      exact ⟨rfl, e, he, q, hq, (Except.ok.inj h).symm⟩
    · rintro ⟨-, e, he, q, hq, rfl⟩
      exact ⟨e, he, bind_eq_ok.2 ⟨q, hq, rfl⟩⟩

/-- Declarations that fit into memory become a program if they call none but each other and can be entered. -/
theorem exists_assembleAll {ds : List Declaration} {asked : Option String} {entry : Option Nat}
    (hfits : 2 + Declaration.sizeAll ds ≤ memorySize) (hcalls : undefinedCall? ds = none)
    (hentry : entryAddress (Declaration.layout Parser.headerSize ds) asked = .ok entry) :
    ∃ p, assembleAll ds asked = .ok p ∧ p.instructions = codeOf ds entry ∧ p.entry = entry.getD 0 ∧
      p.commands = Declaration.layout Parser.headerSize ds := by
  have hroom : Program.empty.size + (codeOf ds entry).length ≤ memorySize := by
    rw [length_codeOf]
    change 0 + _ ≤ memorySize
    rwa [Nat.zero_add]
  obtain ⟨q, hq⟩ := Program.exists_pushAll hroom
  obtain ⟨-, hinstructions, -⟩ := Program.pushAll_eq_ok hq
  exact ⟨_, assembleAll_eq_ok.2 ⟨hcalls, entry, hentry, q, hq, rfl⟩, hinstructions, rfl, rfl⟩

/-- The code of a command that can be called lies where calls of its name go to. -/
theorem holds_code {ds : List Declaration} {entry : Option Nat} {q : Program} {name : String} {d : Declaration}
    (hq : q.instructions = codeOf ds entry) (hd : ds.find? (fun d => d.name == name) = some d) :
    q.Holds (addressIn ds name) (d.code (addressIn ds) (addressIn ds name)) := by
  have hname : name ∈ ds.map (·.name) := List.mem_map.2 ⟨d, Declaration.of_find? hd⟩
  obtain ⟨a, ha⟩ := Declaration.exists_lookup_layout Parser.headerSize hname
  obtain ⟨before, d', after, hds, hd', hsum⟩ := Declaration.lookup_layout ha
  obtain rfl : d = d' := Option.some.inj (hd.symm.trans hd')
  have haddr : addressIn ds name = a := by rw [addressIn, ha, Option.getD_some]
  have hlen : a = (header entry ++ Declaration.codeAll (addressIn ds) Parser.headerSize before).length := by
    rw [List.length_append, length_header, Declaration.length_codeAll, hsum]
  have hcode : q.instructions =
      (header entry ++ Declaration.codeAll (addressIn ds) Parser.headerSize before) ++ d.code (addressIn ds) a ++
        Declaration.codeAll (addressIn ds) (a + d.size) after := by
    rw [hq, codeOf]
    generalize addressIn ds = address
    rw [hds, Declaration.codeAll_append, ← hsum, Declaration.codeAll, ← List.append_assoc, ← List.append_assoc]
  rw [haddr]
  conv => arg 2; rw [hlen]
  exact Program.Holds.of_append hcode

end Compiler

/-- What is compiled has been read, and is made into a program. -/
theorem compile_eq_ok {source : String} {entry : Option String} {p : Program} :
    compile source entry = .ok p ↔ ∃ ds, parse source = .ok ds ∧ Compiler.assembleAll ds entry = .ok p :=
  bind_eq_ok

end GridRobot
