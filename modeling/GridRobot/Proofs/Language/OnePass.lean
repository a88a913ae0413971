import Mathlib.Data.List.Find
import GridRobot.Proofs.Language.Entry
import GridRobot.Proofs.Language.Progress
import GridRobot.Proofs.Program.Relocation

/-!
# Calls are linked

The compiler knows where every command will lie before it makes any code, so each call is made with its target. A single pass over
the text cannot do this, as a command may be called before it is declared. It makes calls of address 0, tells a linkage of each
declaration and of each call, and patches the calls when it has come to the end. Both make the same program, and both refuse the same
call of a command that is not declared (`compile_eq_linked`).
-/

namespace GridRobot

/-! ## What a single pass records -/

/-- The calls of a statement that begins at an address, as references to the symbols of their names. -/
def Statement.references (symbol : String → Nat) (start : Nat) : Statement → List Reference
  | nothing | act _ _ => []
  | andThen first rest => first.references symbol start ++ rest.references symbol (start + first.size)
  | call name _ position => [⟨start, position, symbol name⟩]
  | ifThen test _ body | whileDo test _ body => body.references symbol (start + test.size + 1)
  | ifElse test _ body otherwise =>
    let inner := start + test.size + 1
    body.references symbol inner ++ otherwise.references symbol (inner + body.size + 1)
  | repeatTimes _ _ body _ => body.references symbol (start + 1)

namespace Declaration

/-- The calls of commands that lie one behind the other from an address on. -/
def referencesAll (symbol : String → Nat) (start : Nat) : List Declaration → List Reference
  | [] => []
  | d :: rest => d.body.references symbol start ++ referencesAll symbol (start + d.size) rest

/-- What a linkage is told of these commands in the order of the text: that each is declared, and then what its body calls. -/
def entries (symbol : String → Nat) (start : Nat) : List Declaration → List Linkage.Entry
  | [] => []
  | d :: rest =>
    .declaration (symbol d.name) start :: (d.body.references symbol start).map .reference ++
      entries symbol (start + d.size) rest

end Declaration

/-- The symbol of a name. One that the lexicon does not have has none, and passes for symbol 0. -/
def Lexicon.symbol (l : Lexicon) (name : String) : Nat := (l.lookup? name).getD 0

/-- The address that a linked program is entered at: that of the command asked for, or that of `main` or of the first command. -/
def Linkage.entryAddress (l : Linkage) (symbol? : String → Option Nat) : Option String → Except SourceError (Option Nat)
  | some name =>
    match (symbol? name).bind l.get? with
    | some address => .ok (some address)
    | none => .error ⟨.undefinedCommand name, 0⟩
  | none => .ok (((symbol? "main").bind l.get?).or (l.first?.map (·.2)))

namespace Compiler

/-- The program with its entry. The call of it in word 0 is patched like any other, and replaced if there is no command. -/
def enterLinked (p : Program) : Option Nat → Program
  | some address => (p.patch 0 address).withEntry address
  | none => p.replace 0 (.of .ret 0)

/-- The program that a single pass makes of declarations: calls of address 0 are put into memory, and then the linkage patches those
that it was told of. -/
def linkAll (lexicon : Lexicon) (declared : List Declaration) (entry : Option String) : Except SourceError Program := do
  let draft ← Program.empty.pushAll (header (some 0) ++ Declaration.codeAll (fun _ => 0) Parser.headerSize declared)
  match (Linkage.ofEntries (Declaration.entries lexicon.symbol Parser.headerSize declared)).link lexicon.get? draft with
  | (_, _, some e) => throw e
  | (linkage, linked, none) =>
    let entry ← linkage.entryAddress lexicon.lookup? entry
    return enterLinked { linked with commands := Declaration.layout Parser.headerSize declared } entry

end Compiler

/-! ## The references relocate the code -/

namespace Instruction

/-- A call whose target is changed is a call of the other address. -/
theorem withTarget_call (address target line : Nat) : (of (.call address) line).withTarget target = of (.call target) line := by
  have hlow : address % Opcode.operands < Opcode.operands := Nat.mod_lt _ (by decide)
  obtain ⟨hcategory, -⟩ := Opcode.toNat_category_add (show 10 < 16 by decide) hlow
  have hcategory : (of (.call address) line).category = 10 * Opcode.operands := congrArg (· * Opcode.operands) hcategory
  rw [withTarget, hcategory]
  rfl

end Instruction

section

variable {symbol address : String → Nat} {target : Nat → Nat}

/-- Code stays relocated behind a condition and a jump, which are the same. -/
theorem Relocated.guarded {start : Nat} {is js : List Instruction} {rs : List Reference} (test : Condition) (jump : Instruction)
    (h : Relocated target (start + test.size + 1) is rs js) :
    Relocated target start (test.code ++ jump :: is) rs (test.code ++ jump :: js) :=
  (Relocated.refl start test.code).append (by rw [Condition.length_code]) (.same jump h)

/-- The code of a statement is relocated by the references of its calls. -/
theorem Statement.relocated {s : Statement} (h : ∀ c ∈ s.calls, target (symbol c.1) = address c.1) (start : Nat) :
    Relocated target start (s.code (fun _ => 0) start) (s.references symbol start) (s.code address start) := by
  induction s generalizing start with
  | nothing => exact .nil start
  | act a line => exact .refl start _
  | andThen first rest ih₁ ih₂ =>
    obtain ⟨h₁, h₂⟩ := List.forall_mem_append.1 h
    exact (ih₁ h₁ start).append (by rw [Statement.length_code]) (ih₂ h₂ _)
  | call name line position =>
    have hbehind : Relocated target (start + 1) [] [] [] := .nil _
    have hcall := hbehind.call (.of (.call 0) line) position (symbol name)
    rw [Instruction.withTarget_call, h (name, position) List.mem_cons_self] at hcall
    exact hcall
  | ifThen test line body ih => exact (ih h _).guarded test _
  | ifElse test line body otherwise ih₁ ih₂ =>
    obtain ⟨h₁, h₂⟩ := List.forall_mem_append.1 h
    refine ((ih₁ h₁ _).guarded test _).append ?_ (.same _ (ih₂ h₂ _))
    simp only [List.length_append, List.length_cons, Condition.length_code, Statement.length_code]
    omega
  | whileDo test line body ih => exact ((ih h _).guarded test _).before _
  | repeatTimes count line body closing ih => exact .same _ ((ih h _).before _)

/-- The code of commands is relocated by the references of their calls. -/
theorem Declaration.relocated {ds : List Declaration} (h : ∀ d ∈ ds, ∀ c ∈ d.body.calls, target (symbol c.1) = address c.1)
    (start : Nat) :
    Relocated target start (codeAll (fun _ => 0) start ds) (referencesAll symbol start ds) (codeAll address start ds) := by
  induction ds generalizing start with
  | nil => exact .nil start
  | cons d rest ih =>
    obtain ⟨hd, hrest⟩ := List.forall_mem_cons.1 h
    exact ((Statement.relocated hd start).before _).append (congrArg (start + ·) (length_code _ start d)) (ih hrest _)

end

/-! ## What the linkage knows -/

namespace Statement

/-- The references of a statement are its calls, in the order of the text. -/
theorem map_references (symbol : String → Nat) (s : Statement) (start : Nat) :
    (s.references symbol start).map (fun r => (r.symbol, r.position)) = s.calls.map fun c => (symbol c.1, c.2) := by
  induction s generalizing start with
  | nothing | act | call => rfl
  | andThen first rest ih₁ ih₂ => rw [references, calls, List.map_append, List.map_append, ih₁, ih₂]
  | ifThen test line body ih | whileDo test line body ih | repeatTimes count line body closing ih => exact ih _
  | ifElse test line body otherwise ih₁ ih₂ =>
    dsimp only [references]
    rw [calls, List.map_append, List.map_append, ih₁, ih₂]

end Statement

namespace Declaration

variable (symbol : String → Nat)

theorem map_referencesAll (ds : List Declaration) (start : Nat) :
    (referencesAll symbol start ds).map (fun r => (r.symbol, r.position)) =
      (ds.flatMap fun d => d.body.calls).map fun c => (symbol c.1, c.2) := by
  induction ds generalizing start with
  | nil => rfl
  | cons d rest ih => rw [referencesAll, List.map_append, d.body.map_references, ih, List.flatMap_cons, List.map_append]

theorem referencesOf_entries (ds : List Declaration) (start : Nat) :
    Linkage.referencesOf (entries symbol start ds) = referencesAll symbol start ds := by
  induction ds generalizing start with
  | nil => rfl
  | cons d rest ih =>
    change Linkage.referencesOf ((d.body.references symbol start).map .reference ++ _) = _
    rw [Linkage.referencesOf_append, Linkage.referencesOf_map, ih]
    rfl

/-- The linkage has a command where the layout has it, if symbols tell names apart. -/
theorem addressIn?_entries {symbol : String → Nat} {name : String} {ds : List Declaration}
    (h : ∀ d ∈ ds, symbol d.name = symbol name → d.name = name) (start : Nat) :
    Linkage.addressIn? (entries symbol start ds) (symbol name) = (layout start ds).lookup name := by
  induction ds generalizing start with
  | nil => rfl
  | cons d rest ih =>
    obtain ⟨hd, hrest⟩ := List.forall_mem_cons.1 h
    have hbehind : Linkage.addressIn? ((d.body.references symbol start).map .reference ++ entries symbol (start + d.size) rest)
        (symbol name) = (layout (start + d.size) rest).lookup name := by
      rw [Linkage.addressIn?_append, Linkage.addressIn?_map_reference, Option.none_or]
      exact ih hrest _
    rw [entries, List.cons_append, Linkage.addressIn?_cons, hbehind, layout, List.lookup_cons]
    by_cases hname : d.name = name
    · rw [hname, if_pos rfl, beq_self_eq_true]
    · rw [if_neg fun hsymbol => hname (hd hsymbol), beq_false_of_ne (Ne.symm hname)]

end Declaration

/-- A lexicon without repetitions that has the names by which commands are declared and called. -/
structure Lexicon.Names (l : Lexicon) (ds : List Declaration) : Prop where
  nodup : l.spellings.Nodup
  declared : ∀ d ∈ ds, d.name ∈ l.spellings
  called : ∀ d ∈ ds, ∀ c ∈ d.body.calls, c.1 ∈ l.spellings

namespace Lexicon

variable {l : Lexicon} {ds : List Declaration} {name : String}

theorem lookup?_of_mem (h : name ∈ l.spellings) : l.lookup? name = some (l.symbol name) := by
  obtain ⟨n, hn⟩ := Option.ne_none_iff_exists'.1 fun hnone => lookup?_eq_none_iff.1 hnone h
  rw [symbol, hn, Option.getD_some]

theorem Names.get?_symbol (h : l.Names ds) (hname : name ∈ l.spellings) : l.get? (l.symbol name) = some name :=
  (lookup?_eq_some_iff h.nodup).1 (lookup?_of_mem hname)

/-- A name that the lexicon has is declared in the linkage where it is in the layout. -/
theorem Names.get?_eq (h : l.Names ds) (hname : name ∈ l.spellings) (start : Nat) :
    (Linkage.ofEntries (Declaration.entries l.symbol start ds)).get? (l.symbol name) =
      (Declaration.layout start ds).lookup name := by
  rw [(Linkage.holds_ofEntries _).get?_eq]
  refine Declaration.addressIn?_entries ?_ start
  intro d hd hsymbol
  have hget := h.get?_symbol (h.declared d hd)
  rw [hsymbol, h.get?_symbol hname] at hget
  exact (Option.some.inj hget).symm

/-- A name is looked up in the linkage as in the layout, whether the lexicon has it or not. -/
theorem Names.bind_get? (h : l.Names ds) (name : String) (start : Nat) :
    (l.lookup? name).bind (Linkage.ofEntries (Declaration.entries l.symbol start ds)).get? =
      (Declaration.layout start ds).lookup name := by
  by_cases hname : name ∈ l.spellings
  · rw [lookup?_of_mem hname]
    exact h.get?_eq hname start
  · rw [lookup?_eq_none_iff.2 hname]
    refine (lookup_eq_none_iff_not_mem.2 ?_).symm
    rw [Declaration.names_layout]
    intro hmem
    obtain ⟨d, hd, rfl⟩ := List.mem_map.1 hmem
    exact hname (h.declared d hd)

/-- The entry is found in the linkage as in the layout. -/
theorem Names.entryAddress_eq (h : l.Names ds) (asked : Option String) (start : Nat) :
    (Linkage.ofEntries (Declaration.entries l.symbol start ds)).entryAddress l.lookup? asked =
      Compiler.entryAddress (Declaration.layout start ds) asked := by
  cases asked with
  | some name =>
    cases hlookup : (Declaration.layout start ds).lookup name <;>
    · simp only [Linkage.entryAddress, Compiler.entryAddress, h.bind_get?, hlookup]
  | none =>
    rw [Linkage.entryAddress, Compiler.entryAddress, h.bind_get?]
    cases ds with
    | nil => rfl
    | cons d rest =>
      rw [Declaration.entries, List.cons_append, Linkage.first?_ofEntries]
      rfl

/-- Patching stops at the first call of a command that is not declared. -/
theorem Names.problem_eq (h : l.Names ds) (p : Program) :
    (Linkage.patchAll (Linkage.ofEntries (Declaration.entries l.symbol Parser.headerSize ds)).get? l.get? p
        (Declaration.referencesAll l.symbol Parser.headerSize ds)).2 =
      (Compiler.undefinedCall? ds).map fun c => ⟨.undefinedCommand c.1, c.2⟩ := by
  let linkage := Linkage.ofEntries (Declaration.entries l.symbol Parser.headerSize ds)
  have hcalled : ∀ c ∈ ds.flatMap fun d => d.body.calls, c.1 ∈ l.spellings := by
    intro c hc
    obtain ⟨d, hd, hc⟩ := List.mem_flatMap.1 hc
    exact h.called d hd c hc
  have hfirst : ((ds.flatMap fun d => d.body.calls).find? fun c => (linkage.get? (l.symbol c.1)).isNone) =
      Compiler.undefinedCall? ds := by
    refine List.find?_congr fun c hc => ?_
    rw [h.get?_eq (hcalled c hc), Bool.eq_iff_iff, Option.isNone_iff_eq_none, lookup_eq_none_iff_not_mem,
      Declaration.names_layout]
    simp
  rw [Linkage.patchAll_problem, Declaration.map_referencesAll, List.find?_map, Option.map_map, ← hfirst]
  refine Option.map_congr fun c hc => ?_
  have hmem := hcalled c (List.mem_of_find?_eq_some hc)
  simp only [Function.comp, h.get?_symbol hmem, Option.getD_some]

/-- The addresses that the linkage has for the symbols give the code of the compiler. -/
theorem Names.relocated (h : l.Names ds) :
    Relocated (fun symbol => ((Linkage.ofEntries (Declaration.entries l.symbol Parser.headerSize ds)).get? symbol).getD 0)
      Parser.headerSize (Declaration.codeAll (fun _ => 0) Parser.headerSize ds)
      (Declaration.referencesAll l.symbol Parser.headerSize ds)
      (Declaration.codeAll (Compiler.addressIn ds) Parser.headerSize ds) := by
  refine Declaration.relocated ?_ _
  intro d hd c hc
  exact congrArg (Option.getD · 0) (h.get?_eq (h.called d hd c hc) _)

/-- The linkage has the calls in the order of the text. -/
theorem Names.references_eq (h : l.Names ds) :
    (Linkage.ofEntries (Declaration.entries l.symbol Parser.headerSize ds)).references =
      Declaration.referencesAll l.symbol Parser.headerSize ds := by
  have hof := Declaration.referencesOf_entries l.symbol ds Parser.headerSize
  exact (Linkage.references_ofEntries (hof ▸ h.relocated.ordered.1)).trans hof

end Lexicon

/-! ## Linking and laying out -/

namespace Compiler

variable {l : Lexicon} {ds : List Declaration}

/-- Entering code that was linked puts it into memory with its entry. -/
theorem enterLinked_eq {q : Program} (hq : Program.empty.pushAll (codeOf ds (some 0)) = .ok q) (entry : Option Nat) :
    ∃ p, Program.empty.pushAll (codeOf ds entry) = .ok p ∧
      ∀ commands, enterLinked { q with commands } entry = { p with entry := entry.getD 0, commands } := by
  cases entry with
  | some address =>
    have hpatch := Program.pushAll_patch [] hq address
    rw [Instruction.withTarget_call] at hpatch
    refine ⟨q.patch 0 address, hpatch, ?_⟩
    intro commands
    have hget : Program.get? { q with commands } 0 = q.get? 0 := rfl
    rw [enterLinked, Program.patch, Program.patch, hget]
    cases q.get? 0 <;> rfl
  | none =>
    refine ⟨q.replace 0 (.of .ret 0), pushAll_codeOf hq rfl, ?_⟩
    have hentry : q.entry = 0 := (Program.pushAll_eq_ok hq).2.2.1
    intro commands
    rw [enterLinked, Program.replace, Option.getD_none, ← hentry]
    rfl

/-- What linking gives decides: its problem, or the linked program with its entry. -/
theorem linkAll_of_draft {draft : Program} {asked : Option String}
    (h : Program.empty.pushAll (header (some 0) ++ Declaration.codeAll (fun _ => 0) Parser.headerSize ds) = .ok draft) :
    linkAll l ds asked =
      match (Linkage.ofEntries (Declaration.entries l.symbol Parser.headerSize ds)).link l.get? draft with
      | (_, _, some e) => .error e
      | (linkage, linked, none) => (linkage.entryAddress l.lookup? asked).map fun entry =>
          enterLinked { linked with commands := Declaration.layout Parser.headerSize ds } entry := by
  unfold linkAll
  rw [h]
  rfl

/-- A single pass makes the program that the layout gives, and refuses what the layout refuses, if the commands fit into memory. -/
theorem linkAll_eq (h : l.Names ds) (hfits : 2 + Declaration.sizeAll ds ≤ memorySize) (asked : Option String) :
    linkAll l ds asked = assembleAll ds asked := by
  let linkage := Linkage.ofEntries (Declaration.entries l.symbol Parser.headerSize ds)
  obtain ⟨draft, hdraft⟩ : ∃ draft, Program.empty.pushAll
      (header (some 0) ++ Declaration.codeAll (fun _ => 0) Parser.headerSize ds) = .ok draft := by
    refine Program.exists_pushAll ?_
    rw [List.length_append, length_header, Declaration.length_codeAll]
    exact (Nat.zero_add _).trans_le hfits
  have hproblem := h.problem_eq draft
  rw [← h.references_eq] at hproblem
  rw [linkAll_of_draft hdraft]
  unfold assembleAll
  cases hcalls : undefinedCall? ds with
  | some c =>
    rw [hcalls] at hproblem
    have hlink : linkage.link l.get? draft = (_, _, some ⟨.undefinedCommand c.1, c.2⟩) :=
      Prod.ext rfl (Prod.ext rfl hproblem)
    rw [hlink]
    rfl
  | none =>
    rw [hcalls, Linkage.patchAll_problem, Option.map_none, Option.map_eq_none_iff, List.find?_eq_none,
      List.forall_mem_map] at hproblem
    have hall : ∀ r ∈ linkage.references, linkage.get? r.symbol = some ((linkage.get? r.symbol).getD 0) := by
      intro r hr
      obtain ⟨target, htarget⟩ := Option.ne_none_iff_exists'.1 fun hnone => hproblem r hr (Option.isNone_iff_eq_none.2 hnone)
      rw [htarget, Option.getD_some]
    obtain ⟨q, hpatch, hq⟩ := (h.references_eq ▸ h.relocated).patchAll l.get? hall (length_header (some 0)) hdraft
    have hlink : linkage.link l.get? draft = (⟨linkage.declared, []⟩, q, none) := by
      rw [Linkage.link, hpatch]
    -- the linkage has forgotten its references, which the entry does not depend on
    have hentry : Linkage.entryAddress ⟨linkage.declared, []⟩ l.lookup? asked =
        entryAddress (Declaration.layout Parser.headerSize ds) asked := h.entryAddress_eq asked Parser.headerSize
    rw [hlink]
    dsimp only
    rw [hentry]
    cases entryAddress (Declaration.layout Parser.headerSize ds) asked with
    | error e => rfl
    | ok entry =>
      obtain ⟨p, hp, henter⟩ := enterLinked_eq hq entry
      change Except.ok (enterLinked _ entry) = (Program.empty.pushAll (codeOf ds entry) >>= _)
      rw [hp, henter]
      rfl

end Compiler

/-! ## The names of a text -/

/-- The lexicon behind a text has no spelling twice. -/
theorem Scan.nodup_lexicon (text : String) : (Scan.of text).lexicon.spellings.Nodup := by
  have hread : ∀ fuel (lx : Lexer), lx.lexicon.spellings.Nodup → (read fuel lx).lexicon.spellings.Nodup := by
    intro fuel
    induction fuel with
    | zero => exact fun _ h => h
    | succ fuel ih =>
      intro lx h
      have hnext : lx.next.2.lexicon.spellings.Nodup := by
        rcases lx.lexicon_next with hsame | ⟨spelling, kind, -, henter⟩
        · rwa [hsame]
        · rw [henter]
          exact Lexicon.nodup_enter h
      unfold read
      split
      · rename_i heq
        rwa [heq] at hnext
      · rename_i heq
        rw [heq] at hnext
        split
        · exact hnext
        · exact ih _ hnext
  have hstandard : Lexicon.standard.spellings.Nodup := by decide
  exact hread _ _ hstandard

/-- The lexicon behind a text that lexes has the spellings of its tokens. -/
theorem Scan.text_mem_lexicon {text : String} {eof : Token} (h : (Scan.of text).ending = .endOfInput eof) :
    ∀ t ∈ (Scan.of text).tokens, t.text ∈ (Scan.of text).lexicon.spellings := by
  intro t ht
  obtain ⟨_, _, _, -, hstands⟩ := stands_of_mem h t ht
  obtain ⟨symbol, -, hget⟩ := Option.bind_eq_some_iff.1 hstands.known
  rw [Lexicon.get?_eq] at hget
  exact List.mem_of_getElem? hget

namespace Grammar

/-- A call has the name and the position of a token. -/
def SpelledBy (ts : List Token) (call : String × Nat) : Prop := ∃ t ∈ ts, call = (t.text, t.position)

theorem SpelledBy.mono {ts us : List Token} {call : String × Nat} (h : SpelledBy ts call) (hsub : ∀ t ∈ ts, t ∈ us) :
    SpelledBy us call := by
  obtain ⟨t, ht, hcall⟩ := h
  exact ⟨t, hsub t ht, hcall⟩

/-- The calls of a statement are spelled by its tokens. -/
theorem SpellsStatement.calls {form : Form} {s : Statement} {ts : List Token} {depth : Nat}
    (h : SpellsStatement form s ts depth) : ∀ c ∈ s.calls, SpelledBy ts c := by
  induction h with
  | nothing | act => exact nofun
  | call => exact List.forall_mem_singleton.2 ⟨_, List.mem_cons_self, rfl⟩
  | conditional _ ih => exact ih
  | andThen _ _ ih₁ ih₂ =>
    refine List.forall_mem_append.2 ⟨?_, ?_⟩
    · exact fun c hc => (ih₁ c hc).mono fun t ht => List.mem_append_left _ ht
    · exact fun c hc => (ih₂ c hc).mono fun t ht => List.mem_append_right _ ht
  | block _ _ _ ih | ifThen _ _ _ ih | whileDo _ _ _ ih | repeatTimes _ _ _ _ _ _ ih =>
    exact fun c hc => (ih c hc).mono fun t ht => by simp [ht]
  | ifElse _ _ _ _ _ ih₁ ih₂ | elseIf _ _ _ _ _ ih₁ ih₂ =>
    refine List.forall_mem_append.2 ⟨?_, ?_⟩
    · exact fun c hc => (ih₁ c hc).mono fun t ht => by simp [ht]
    · exact fun c hc => (ih₂ c hc).mono fun t ht => by simp [ht]

/-- The calls in a program are spelled by its tokens. -/
theorem SpellsProgram.calls {ds : List Declaration} {ts : List Token} {depth : Nat} (h : SpellsProgram ds ts depth) :
    ∀ d ∈ ds, ∀ c ∈ d.body.calls, SpelledBy ts c := by
  induction h with
  | nil => exact nofun
  | cons hfirst _ ih =>
    refine List.forall_mem_cons.2 ⟨?_, ?_⟩
    · cases hfirst with
      | void _ _ _ _ hbody => exact fun c hc => (hbody.calls c hc).mono fun t ht => by simp [ht]
    · exact fun d hd c hc => (ih d hd c hc).mono fun t ht => List.mem_append_right _ ht

end Grammar

/-- What is read can be compiled in a single pass. Calls of address 0 are put into memory, and linking by the symbols that the lexer
gave to the names patches those calls, or reports the first one of a command that is not declared: the program, or the error, is that
of the compiler, whichever command is asked for. -/
theorem compile_eq_linked {source : String} {ds : List Declaration} (h : parse source = .ok ds) (asked : Option String) :
    ∃ ts lexicon, lex source = .ok (ts, lexicon) ∧ compile source asked = Compiler.linkAll lexicon ds asked := by
  obtain ⟨ts, eof, lexicon, depth, hlex, hspells, hbounds⟩ := parse_sound h
  obtain ⟨rfl, hending, rfl⟩ := lex_eq_ok_iff.1 hlex
  have hnames : (Scan.of source).lexicon.Names ds := by
    refine ⟨Scan.nodup_lexicon source, ?_, ?_⟩
    · intro d hd
      obtain ⟨t, ht, -, htext⟩ := hspells.exists_identifier d hd
      exact htext ▸ Scan.text_mem_lexicon hending t ht
    · intro d hd c hc
      obtain ⟨t, ht, rfl⟩ := hspells.calls d hd c hc
      exact Scan.text_mem_lexicon hending t ht
  refine ⟨_, _, hlex, ?_⟩
  rw [Compiler.linkAll_eq hnames hbounds.fits]
  exact congrArg (· >>= fun ds => Compiler.assembleAll ds asked) h

end GridRobot
