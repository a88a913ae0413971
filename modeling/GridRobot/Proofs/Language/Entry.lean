import GridRobot.Proofs.Assembler.Acceptable
import GridRobot.Proofs.Language.Tokens

/-!
# The entry of a program

A program that is entered with a command asked for is the program that is entered as usual, but for the call in word 0 and the
entry itself (`compile_entered`). The usual entry is `main`, or the first command if there is no `main`. A name that no command
has is refused, and reserved words and the names of actions and sensors are never those of commands.
-/

namespace GridRobot

/-! ## Entering a program elsewhere -/

namespace Program

/-- The program that is entered at an address: word 0 is a call of it, and no line stands for this call. -/
def enteredAt (p : Program) (address : Nat) : Program := (p.replace 0 (.of (.call address) 0)).withEntry address

theorem get?_enteredAt (p : Program) (address b : Nat) :
    (p.enteredAt address).get? b = if b = 0 then some (.of (.call address) 0) else p.get? b :=
  get?_replace (by decide) _ b

end Program

namespace Compiler

variable {ds : List Declaration} {asked : Option String}

/-- Of what is asked for, only the address counts that it has. -/
theorem assembleAll_congr {asked' : Option String}
    (h : entryAddress (Declaration.layout Parser.headerSize ds) asked = entryAddress (Declaration.layout Parser.headerSize ds) asked') :
    assembleAll ds asked = assembleAll ds asked' := by
  unfold assembleAll
  simp only [h]

/-- Two headers differ in their first word. -/
theorem header_eq_cons (entry : Option Nat) : ∃ i, header entry = [i, .of .ret 0] := by
  cases entry <;> exact ⟨_, rfl⟩

/-- Putting code into memory with one entry and then changing the entry puts it there with the other one. -/
theorem pushAll_codeOf {entry entry' : Option Nat} {i : Instruction} {q : Program}
    (h : Program.empty.pushAll (codeOf ds entry) = .ok q) (hi : header entry' = [i, .of .ret 0]) :
    Program.empty.pushAll (codeOf ds entry') = .ok (q.replace 0 i) := by
  obtain ⟨j, hj⟩ := header_eq_cons entry
  rw [codeOf, hj] at h
  rw [codeOf, hi]
  exact Program.pushAll_exchange [] h i

/-- With a command that is declared, declarations become the program that they become as usual, entered at its address. -/
theorem assembleAll_entered {p : Program} {name : String} {address : Nat} (h : assembleAll ds none = .ok p)
    (hname : p.commands.lookup name = some address) : assembleAll ds (some name) = .ok (p.enteredAt address) := by
  obtain ⟨hcalls, e, -, q, hq, rfl⟩ := assembleAll_eq_ok.1 h
  have hentry : entryAddress (Declaration.layout Parser.headerSize ds) (some name) = .ok (some address) := by
    simp only [entryAddress, show (Declaration.layout Parser.headerSize ds).lookup name = some address from hname]
  exact assembleAll_eq_ok.2 ⟨hcalls, some address, hentry, _, pushAll_codeOf hq rfl, rfl⟩

/-- With a name that no command has, declarations that become a program as usual are refused. -/
theorem assembleAll_missing {p : Program} {name : String} (h : assembleAll ds none = .ok p)
    (hname : p.commands.lookup name = none) : assembleAll ds (some name) = .error ⟨.undefinedCommand name, 0⟩ := by
  obtain ⟨hcalls, e, -, q, hq, rfl⟩ := assembleAll_eq_ok.1 h
  unfold assembleAll
  rw [hcalls]
  simp only [entryAddress, show (Declaration.layout Parser.headerSize ds).lookup name = none from hname]
  rfl

end Compiler

/-! ## Addresses of commands -/

section

variable {commands : List (String × Nat)} {name : String}

theorem lookup_eq_none_iff_not_mem : commands.lookup name = none ↔ name ∉ commands.map (·.1) := by
  rw [List.lookup_eq_none_iff, List.mem_map]
  constructor
  · rintro h ⟨c, hc, rfl⟩
    simpa using h c hc
  · intro h c hc
    rw [bne_iff_ne]
    rintro rfl
    exact h ⟨c, hc, rfl⟩

/-- If no two commands have one name, the address of each is found by its name. -/
theorem lookup_eq_some_of_mem {address : Nat} (h : (commands.map (·.1)).Nodup) (hmem : (name, address) ∈ commands) :
    commands.lookup name = some address := by
  obtain ⟨before, after, rfl⟩ := List.append_of_mem hmem
  refine List.lookup_eq_some_iff.2 ⟨before, after, rfl, ?_⟩
  intro c hc
  rw [List.map_append, List.nodup_append] at h
  rw [bne_iff_ne]
  exact (h.2.2 c.1 (List.mem_map_of_mem hc) name (by simp)).symm

namespace Compiler

/-- The usual entry is `main` if it is declared. -/
theorem entryAddress_main (h : "main" ∈ commands.map (·.1)) : entryAddress commands (some "main") = entryAddress commands none := by
  cases ha : commands.lookup "main" with
  | none => exact absurd h (lookup_eq_none_iff_not_mem.1 ha)
  | some address => simp [entryAddress, ha]

/-- Otherwise it is the first command. -/
theorem entryAddress_first {c : String × Nat} (h : "main" ∉ (c :: commands).map (·.1)) :
    entryAddress (c :: commands) (some c.1) = entryAddress (c :: commands) none := by
  obtain ⟨first, address⟩ := c
  simp only [entryAddress, List.lookup_cons_self, lookup_eq_none_iff_not_mem.2 h, Option.none_or, List.head?_cons,
    Option.map_some]

end Compiler

end

/-! ## Names of commands -/

/-- The name of a command is that of an identifier. -/
theorem Grammar.SpellsProgram.exists_identifier {ds : List Declaration} {ts : List Token} {depth : Nat}
    (h : Grammar.SpellsProgram ds ts depth) : ∀ d ∈ ds, ∃ t ∈ ts, t.kind = .identifier ∧ t.text = d.name := by
  induction h with
  | nil => exact nofun
  | @cons first rest ts us _ _ hfirst _ ih =>
    refine List.forall_mem_cons.2 ⟨?_, ?_⟩
    · cases hfirst with
      | void _ hname _ _ _ => exact ⟨_, by simp, hname, rfl⟩
    · intro d hd
      obtain ⟨t, ht, hkind⟩ := ih d hd
      exact ⟨t, List.mem_append_right _ ht, hkind⟩

/-- A name that no command can have: a reserved word, or that of an action or a sensor. -/
def Reserved (name : String) : Prop := (∃ k, (name, k) ∈ Kind.keywords) ∨ Parser.isBuiltin name = true

/-- No command of a compiled program has a reserved name, no two commands have one name, and every command has an address that a
call can go to. -/
theorem commands_of_compile {source : String} {p : Program} (h : compile source none = .ok p) :
    (∀ name, Reserved name → name ∉ p.commands.map (·.1)) ∧ (p.commands.map (·.1)).Nodup ∧
      ∀ c ∈ p.commands, c.2 < Opcode.operands := by
  obtain ⟨ts, eof, lexicon, ds, depth, hlex, hspells, ha, -, hp⟩ := admissible_of_compile h
  obtain ⟨rfl, hending, -⟩ := lex_eq_ok_iff.1 hlex
  obtain ⟨-, e, -, q, -, rfl⟩ := Compiler.assembleAll_eq_ok.1 hp
  have hnames := Declaration.names_layout Parser.headerSize ds
  have hdistinct : ((Declaration.layout Parser.headerSize ds).map (·.1)).Nodup := hnames ▸ ha.distinct
  refine ⟨?_, hdistinct, ?_⟩
  · intro name hname hmem
    rw [hnames] at hmem
    obtain ⟨d, hd, rfl⟩ := List.mem_map.1 hmem
    rcases hname with ⟨k, hk⟩ | hbuiltin
    · obtain ⟨t, ht, hkind, htext⟩ := hspells.exists_identifier d hd
      obtain ⟨_, _, _, -, hstands⟩ := Scan.stands_of_mem hending t ht
      have hkeyword : ∀ entry ∈ Kind.keywords, entry.2.isKeyword = true ∧ entry.2 ≠ .identifier := by decide
      obtain ⟨hreserved, hother⟩ := hkeyword _ hk
      have hiff := hstands.whole.kind_eq_iff hreserved
      rw [String.ofList_toList, htext] at hiff
      exact hother ((hiff.2 hk).symm.trans hkind)
    · obtain ⟨haction, hsensor⟩ := ha.fresh d hd
      simp [Parser.isBuiltin, haction, hsensor] at hbuiltin
  · rintro ⟨name, address⟩ hc
    obtain ⟨rfl, -⟩ := Compiler.addressIn_of_lookup (lookup_eq_some_of_mem hdistinct hc)
    exact Compiler.addressIn_lt ha.fits name

/-! ## Compiling with an entry -/

/-- What is refused when it is entered as usual is refused for the same reason with every entry. -/
theorem compile_error_entered {source : String} {e : SourceError} (h : compile source none = .error e) (name : String) :
    compile source (some name) = .error e := by
  rcases bind_eq_error.1 h with hparse | ⟨ds, hparse, hrefused⟩
  · exact bind_eq_error.2 (.inl hparse)
  · obtain ⟨_, _, _, _, -, -, hbounds⟩ := parse_sound hparse
    refine bind_eq_error.2 (.inr ⟨ds, hparse, ?_⟩)
    cases hcalls : Compiler.undefinedCall? ds with
    | some call =>
      -- both stop at the call, before the entry is looked for
      unfold Compiler.assembleAll at hrefused ⊢
      rw [hcalls] at hrefused ⊢
      exact hrefused
    | none =>
      obtain ⟨p, hp, -⟩ := Compiler.exists_assembleAll hbounds.fits hcalls (show Compiler.entryAddress _ none = .ok _ from rfl)
      nomatch hp.symm.trans hrefused

/-- A program without commands ends at once. -/
theorem entry_of_no_commands {ds : List Declaration} {p : Program} (h : Compiler.assembleAll ds none = .ok p)
    (hnone : p.commands = []) : p.get? 0 = some (.of .ret 0) ∧ p.entry = 0 := by
  obtain ⟨-, e, he, q, hq, rfl⟩ := Compiler.assembleAll_eq_ok.1 h
  have hnone : Declaration.layout Parser.headerSize ds = [] := hnone
  rw [hnone] at he
  obtain rfl : none = e := Except.ok.inj he
  have hfirst : q.instructions[0]? = some (.of .ret 0) := by
    rw [(Program.pushAll_eq_ok hq).2.1]
    rfl
  exact ⟨Program.get?_eq_of_instructions hfirst, rfl⟩

/-- Choosing an entry changes the entry and nothing else. A text that is refused when it is entered as usual is refused for the same
reason with every entry. Otherwise it can be entered with the commands of its program and with no others: word 0 is then a call of
the command, and the rest is as usual. A missing command is refused at position 0, and names that are reserved are always missing.
The usual entry is `main`, or the first command if there is no `main`; a program without commands begins with a return. -/
theorem compile_entered (source name : String) :
    (∀ e, compile source none = .error e → compile source (some name) = .error e) ∧
    ∀ p, compile source none = .ok p →
      ((∃ q, compile source (some name) = .ok q) ↔ name ∈ p.commands.map (·.1)) ∧
      (∀ address, (name, address) ∈ p.commands → compile source (some name) = .ok (p.enteredAt address) ∧
        (∀ b, (p.enteredAt address).get? b = if b = 0 then some (.of (.call address) 0) else p.get? b) ∧
        (Instruction.of (.call address) 0).decode = some (.call address)) ∧
      (name ∉ p.commands.map (·.1) → compile source (some name) = .error ⟨.undefinedCommand name, 0⟩) ∧
      (Reserved name → name ∉ p.commands.map (·.1)) ∧
      ("main" ∈ p.commands.map (·.1) → compile source (some "main") = .ok p) ∧
      ("main" ∉ p.commands.map (·.1) → ∀ c rest, p.commands = c :: rest → compile source (some c.1) = .ok p) ∧
      (p.commands = [] → p.get? 0 = some (.of .ret 0) ∧ p.entry = 0) := by
  refine ⟨fun e h => compile_error_entered h name, ?_⟩
  intro p h
  obtain ⟨hreserved, hdistinct, hreach⟩ := commands_of_compile h
  obtain ⟨ds, hparse, hp⟩ := compile_eq_ok.1 h
  have hcommands : p.commands = Declaration.layout Parser.headerSize ds := by
    obtain ⟨-, _, -, _, -, rfl⟩ := Compiler.assembleAll_eq_ok.1 hp
    rfl
  have hentered : ∀ address, (name, address) ∈ p.commands → compile source (some name) = .ok (p.enteredAt address) :=
    fun address hmem => compile_eq_ok.2 ⟨ds, hparse, Compiler.assembleAll_entered hp (lookup_eq_some_of_mem hdistinct hmem)⟩
  have hmissing : name ∉ p.commands.map (·.1) → compile source (some name) = .error ⟨.undefinedCommand name, 0⟩ :=
    fun hmem => bind_eq_error.2
      (.inr ⟨ds, hparse, Compiler.assembleAll_missing hp (lookup_eq_none_iff_not_mem.2 hmem)⟩)
  refine ⟨⟨?_, ?_⟩, ?_, hmissing, hreserved name, ?_, ?_, ?_⟩
  · rintro ⟨r, hr⟩
    by_contra hmem
    nomatch (hmissing hmem).symm.trans hr
  · intro hmem
    obtain ⟨⟨_, address⟩, hc, rfl⟩ := List.mem_map.1 hmem
    exact ⟨_, hentered address hc⟩
  · intro address hmem
    exact ⟨hentered address hmem, p.get?_enteredAt address, Opcode.decode_encode (Opcode.fits_of_lt rfl (hreach _ hmem))⟩
  · intro hmain
    rw [hcommands] at hmain
    exact compile_eq_ok.2 ⟨ds, hparse, (Compiler.assembleAll_congr (Compiler.entryAddress_main hmain)).trans hp⟩
  · intro hmain c rest hc
    rw [hc] at hmain
    rw [hcommands] at hc
    refine compile_eq_ok.2 ⟨ds, hparse, (Compiler.assembleAll_congr ?_).trans hp⟩
    rw [hc]
    exact Compiler.entryAddress_first hmain
  · exact entry_of_no_commands hp

end GridRobot
