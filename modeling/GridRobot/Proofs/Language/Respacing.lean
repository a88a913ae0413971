import GridRobot.Proofs.Language.Alike
import GridRobot.Proofs.Language.Layout

/-!
# The same tokens, spaced differently

The compiler makes the same words of two texts with the same tokens, or refuses both for the same reason at the same token
(`compile_of_same_tokens`): white space and comments do not count. The parser reads such texts alike, and the code of what is alike
differs in lines only.
-/

namespace GridRobot

variable {Q : Likeness}

/-! ## Code -/

namespace Instruction

/-- The words of instructions. -/
def words (is : List Instruction) : List UInt16 := is.map (·.word)

@[simp] theorem words_nil : words [] = [] := rfl

@[simp] theorem words_of_cons (op : Opcode) (line : Nat) (is : List Instruction) :
    words (.of op line :: is) = op.encode :: words is := rfl

@[simp] theorem words_append (is js : List Instruction) : words (is ++ js) = words is ++ words js := List.map_append

end Instruction

namespace Condition.Alike

variable {c c' : Condition}

/-- Conditions that are alike have code of one size. -/
theorem size_eq (h : c.Alike c') : c.size = c'.size := by
  induction h with
  | sense => rfl
  | not _ _ _ ih => simp only [Condition.size, ih]
  | and _ _ _ _ ihl ihr | or _ _ _ _ ihl ihr => simp only [Condition.size, ihl, ihr]

/-- Conditions that are alike have code with the same words. -/
theorem words_eq (h : c.Alike c') : Instruction.words c.code = Instruction.words c'.code := by
  induction h with
  | sense => rfl
  | not _ _ _ ih => simp [Condition.code, ih]
  | and _ _ _ _ ihl ihr | or _ _ _ _ ihl ihr => simp [Condition.code, ihl, ihr]

end Condition.Alike

/-- Calls of one name, which is spelled like a token, at corresponding positions. -/
structure CallAlike (Q : Likeness) (c c' : String × Nat) : Prop where
  name : c.1 = c'.1
  spelling : Q.spelling c'.1
  position : Q.position c.2 c'.2

namespace Statement.Alike

variable {s s' : Statement}

/-- Statements that are alike have code of one size. -/
theorem size_eq (h : s.Alike Q s') : s.size = s'.size := by
  induction h with
  | nothing | act | call => rfl
  | andThen _ _ ih₁ ih₂ => simp only [Statement.size, ih₁, ih₂]
  | ifThen _ _ hc _ ih | whileDo _ _ hc _ ih => simp only [Statement.size, hc.size_eq, ih]
  | ifElse _ _ hc _ _ ih₁ ih₂ => simp only [Statement.size, hc.size_eq, ih₁, ih₂]
  | repeatTimes _ _ _ _ _ _ ih => simp only [Statement.size, ih]

/-- Wherever it begins, what is alike has the same words. -/
theorem words_eq (h : s.Alike Q s') (address : String → Nat) (start : Nat) :
    Instruction.words (s.code address start) = Instruction.words (s'.code address start) := by
  induction h generalizing start with
  | nothing | act | call => rfl
  | andThen h₁ _ ih₁ ih₂ => simp [Statement.code, ih₁, ih₂, h₁.size_eq]
  | ifThen _ _ hc h ih | whileDo _ _ hc h ih => simp [Statement.code, hc.words_eq, hc.size_eq, h.size_eq, ih]
  | ifElse _ _ hc h₁ h₂ ih₁ ih₂ => simp [Statement.code, hc.words_eq, hc.size_eq, h₁.size_eq, h₂.size_eq, ih₁, ih₂]
  | repeatTimes _ _ _ _ _ _ ih => simp [Statement.code, ih]

/-- The same commands are called, at corresponding positions, by names that are spelled like tokens. -/
theorem calls_alike (h : s.Alike Q s') : List.Forall₂ (CallAlike Q) s.calls s'.calls := by
  induction h with
  | nothing | act => exact .nil
  | andThen _ _ ih₁ ih₂ | ifElse _ _ _ _ _ ih₁ ih₂ => exact List.rel_append ih₁ ih₂
  | call _ _ _ hspelling hposition => exact .cons ⟨rfl, hspelling, hposition⟩ .nil
  | ifThen _ _ _ _ ih | whileDo _ _ _ _ ih | repeatTimes _ _ _ _ _ _ ih => exact ih

end Statement.Alike

namespace Declaration

variable {ds ds' : List Declaration}

/-- Commands that are alike lie at the same addresses. -/
theorem layout_eq (h : List.Forall₂ (Declaration.Alike Q) ds ds') (start : Nat) : layout start ds = layout start ds' := by
  induction h generalizing start with
  | nil => rfl
  | cons hd _ ih => rw [layout, layout, hd.name, size, size, hd.body.size_eq, ih]

theorem sizeAll_eq (h : List.Forall₂ (Declaration.Alike Q) ds ds') : sizeAll ds = sizeAll ds' := by
  induction h with
  | nil => rfl
  | cons hd _ ih => rw [sizeAll, sizeAll, size, size, hd.body.size_eq, ih]

/-- Commands that are alike have code with the same words. -/
theorem words_codeAll (h : List.Forall₂ (Declaration.Alike Q) ds ds') (address : String → Nat) (start : Nat) :
    Instruction.words (codeAll address start ds) = Instruction.words (codeAll address start ds') := by
  induction h generalizing start with
  | nil => rfl
  | cons hd _ ih => simp [codeAll, code, size, hd.body.words_eq, hd.body.size_eq, ih]

end Declaration

/-- Programs that differ in lines only. -/
structure Program.SameCode (p p' : Program) : Prop where
  words : Instruction.words p.instructions = Instruction.words p'.instructions
  entry : p.entry = p'.entry
  commands : p.commands = p'.commands

namespace Compiler

variable {ds ds' : List Declaration}

/-- Programs of commands that are alike have the same words. -/
theorem words_codeOf (h : List.Forall₂ (Declaration.Alike Q) ds ds') (entry : Option Nat) :
    Instruction.words (codeOf ds entry) = Instruction.words (codeOf ds' entry) := by
  have haddress : addressIn ds = addressIn ds' := by
    funext name
    rw [addressIn, addressIn, Declaration.layout_eq h]
  simp [codeOf, haddress, Declaration.words_codeAll h]

/-- Of what is alike, the same call is the first one of a command that is not declared. -/
theorem undefinedCall?_alike (h : List.Forall₂ (Declaration.Alike Q) ds ds') :
    Option.Rel (CallAlike Q) (undefinedCall? ds) (undefinedCall? ds') := by
  have hfind : ∀ {calls calls' : List (String × Nat)}, List.Forall₂ (CallAlike Q) calls calls' →
      Option.Rel (CallAlike Q) (calls.find? fun c => !ds.any (fun d => d.name == c.1))
        (calls'.find? fun c => !ds'.any (fun d => d.name == c.1)) := by
    intro calls calls' hcalls
    induction hcalls with
    | nil => exact .none
    | cons hc _ ih =>
      rw [List.find?_cons, List.find?_cons, hc.name, Parser.any_name_eq h]
      split
      · exact .some hc
      · exact ih
  exact hfind (List.rel_flatMap h fun _ _ hd => hd.body.calls_alike)

/-- A command that is asked for is missing from declarations with which nothing else is wrong. -/
def LacksEntry (ds : List Declaration) (asked : Option String) : Prop :=
  ∃ name, asked = some name ∧ assembleAll ds asked = .error ⟨.undefinedCommand name, 0⟩ ∧
    ∃ p, assembleAll ds none = .ok p ∧ name ∉ p.commands.map (·.1)

/-- Declarations that fit into memory and call none but each other cannot be entered only if the entry is missing. -/
theorem lacksEntry_of_entryAddress {asked : Option String} {e : SourceError}
    (hfits : 2 + Declaration.sizeAll ds ≤ memorySize) (hcalls : undefinedCall? ds = none)
    (hentry : entryAddress (Declaration.layout Parser.headerSize ds) asked = .error e) : LacksEntry ds asked := by
  have hrefused : assembleAll ds asked = .error e := by
    unfold assembleAll
    rw [hcalls]
    exact bind_eq_error.2 (.inl hentry)
  unfold entryAddress at hentry
  split at hentry
  · rename_i name
    split at hentry
    · nomatch hentry
    · rename_i hlookup
      obtain rfl := Except.error.inj hentry
      obtain ⟨p, hp, -, -, hcommands⟩ := exists_assembleAll hfits hcalls (show entryAddress _ none = .ok _ from rfl)
      refine ⟨name, rfl, hrefused, p, hp, ?_⟩
      rw [hcommands, Declaration.names_layout]
      intro hmem
      obtain ⟨a, ha⟩ := Declaration.exists_lookup_layout Parser.headerSize hmem
      nomatch hlookup.symm.trans ha
  · nomatch hentry

/-- Programs are made alike of declarations that are alike, unless the command that is asked for is missing. -/
theorem assembleAll_alike (h : List.Forall₂ (Declaration.Alike Q) ds ds') (hfits : 2 + Declaration.sizeAll ds ≤ memorySize)
    (asked : Option String) :
    Corresponds Q Program.SameCode (assembleAll ds asked) (assembleAll ds' asked) ∨
      LacksEntry ds asked ∧ LacksEntry ds' asked := by
  have hfits' : 2 + Declaration.sizeAll ds' ≤ memorySize := by rwa [← Declaration.sizeAll_eq h]
  have hlayout := Declaration.layout_eq h Parser.headerSize
  generalize hcalls : undefinedCall? ds = c at *
  generalize hcalls' : undefinedCall? ds' = c' at *
  have hrel : Option.Rel (CallAlike Q) c c' := hcalls ▸ hcalls' ▸ undefinedCall?_alike h
  cases hrel with
  | @some call call' hc =>
    obtain ⟨name, position⟩ := call
    obtain ⟨name', position'⟩ := call'
    obtain rfl : name = name' := hc.name
    unfold assembleAll
    rw [hcalls, hcalls']
    exact .inl (.error _ (.one rfl hc.spelling) hc.position)
  | none =>
    cases hentry : entryAddress (Declaration.layout Parser.headerSize ds) asked with
    | error e =>
      exact .inr ⟨lacksEntry_of_entryAddress hfits hcalls hentry,
        lacksEntry_of_entryAddress hfits' hcalls' (hlayout ▸ hentry)⟩
    | ok entry =>
      obtain ⟨p, hp, hinstructions, he, hcommands⟩ := exists_assembleAll hfits hcalls hentry
      obtain ⟨p', hp', hinstructions', he', hcommands'⟩ := exists_assembleAll hfits' hcalls' (hlayout ▸ hentry)
      rw [hp, hp']
      refine .inl (.ok ⟨?_, he.trans he'.symm, ?_⟩)
      · rw [hinstructions, hinstructions', words_codeOf h]
      · rw [hcommands, hcommands', hlayout]

end Compiler

/-! ## Texts -/

/-- Two positions are those of the tokens with the same number in two texts. -/
def Counterparts (ts ts' : List Token) (position position' : Nat) : Prop :=
  ∃ (i : Nat) (t t' : Token), ts[i]? = some t ∧ ts'[i]? = some t' ∧ position = t.position ∧ position' = t'.position

/-- The tokens of a text that lexes are those that are read, and the one for its end. -/
theorem Reading.exists_of_lex {source : String} {ts : List Token} {lexicon : Lexicon} (h : lex source = .ok (ts, lexicon)) :
    ∃ eof, ts = (ofText source).tokens ++ [eof] ∧ (ofText source).ending = .endOfInput eof := by
  unfold lex at h
  dsimp only at h
  split at h
  · rename_i eof hending
    exact ⟨eof, (congrArg Prod.fst (Except.ok.inj h)).symm, hending⟩
  · nomatch h

/-- The tokens of two texts correspond to each other by their numbers, however they are spelled. -/
def Likeness.byNumber (ts ts' : List Token) : Likeness := ⟨Counterparts ts ts', fun _ => True⟩

/-- Texts with tokens of the same kinds and spellings are read alike. -/
theorem Reading.alike_of_lex {source source' : String} {ts ts' : List Token} {lexicon lexicon' : Lexicon}
    (h : lex source = .ok (ts, lexicon)) (h' : lex source' = .ok (ts', lexicon'))
    (hsame : ts.map (fun t => (t.kind, t.text)) = ts'.map (fun t => (t.kind, t.text))) :
    (ofText source).Alike (.byNumber ts ts') (ofText source') := by
  have halike : List.Forall₂ (Token.Alike (.byNumber ts ts')) ts ts' := by
    have hlength : ts.length = ts'.length := by simpa using congrArg List.length hsame
    refine List.forall₂_iff_get.2 ⟨hlength, fun i hi hi' => ?_⟩
    have hi'' : ts[i]? = some (ts.get ⟨i, hi⟩) ∧ ts'[i]? = some (ts'.get ⟨i, hi'⟩) := by simp
    have hpair := congrArg (·[i]?) hsame
    simp only [List.getElem?_map, hi''.1, hi''.2, Option.map_some, Option.some.injEq, Prod.mk.injEq] at hpair
    exact ⟨hpair.1, hpair.2, ⟨i, _, _, hi''.1, hi''.2, rfl, rfl⟩, trivial⟩
  obtain ⟨eof, rfl, heof⟩ := exists_of_lex h
  obtain ⟨eof', rfl, heof'⟩ := exists_of_lex h'
  generalize Likeness.byNumber _ _ = Q at halike ⊢
  rw [← List.forall₂_reverse_iff, List.reverse_concat, List.reverse_concat, List.forall₂_cons, List.forall₂_reverse_iff] at halike
  exact ⟨halike.2, heof ▸ heof' ▸ .endOfInput halike.1, rfl⟩

/-- Texts that are alike are parsed alike. -/
theorem parse_corresponds {source source' : String} (h : (Reading.ofText source).Alike Q (Reading.ofText source')) :
    Corresponds Q (List.Forall₂ (Declaration.Alike Q)) (parse source) (parse source') := by
  change Corresponds Q _ (Prod.fst <$> Parser.declarations (Reading.ofText source).tokens.length [] (Reading.ofText source))
    (Prod.fst <$> Parser.declarations (Reading.ofText source').tokens.length [] (Reading.ofText source'))
  rw [h.tokens.length_eq]
  exact (Parser.declarations_agrees _ .nil _ _ h).map fun _ _ hx => hx.1

/-- Texts that are alike are compiled alike, unless the command that is asked for is missing. -/
theorem compile_alike {source source' : String} (h : (Reading.ofText source).Alike Q (Reading.ofText source'))
    (asked : Option String) :
    Corresponds Q Program.SameCode (compile source asked) (compile source' asked) ∨
      ∃ name p, asked = some name ∧ compile source none = .ok p ∧ name ∉ p.commands.map (·.1) ∧
        compile source asked = .error ⟨.undefinedCommand name, 0⟩ ∧
        compile source' asked = .error ⟨.undefinedCommand name, 0⟩ := by
  have hparse := parse_corresponds h
  unfold compile
  generalize hds : parse source = x at hparse ⊢
  generalize parse source' = x' at hparse ⊢
  cases hparse with
  | error problem hquotes hq => exact .inl (.error problem hquotes hq)
  | ok halike =>
    obtain ⟨_, _, _, _, -, -, hbounds⟩ := parse_sound hds
    rcases Compiler.assembleAll_alike halike hbounds.fits asked with hall | ⟨hlacks, hlacks'⟩
    · exact .inl hall
    · obtain ⟨name, rfl, hrefused, p, hp, hmissing⟩ := hlacks
      obtain ⟨_, ⟨⟩, hrefused', -⟩ := hlacks'
      exact .inr ⟨name, p, rfl, hp, hmissing, hrefused, hrefused'⟩

/-- The same tokens are compiled to the same words, with the same entry and the same commands, or they are refused for the same
reason at the same token, whatever is between them. A command that is asked for and missing is refused at position 0. -/
theorem compile_of_same_tokens {source source' : String} {ts ts' : List Token} {lexicon lexicon' : Lexicon}
    (h : lex source = .ok (ts, lexicon)) (h' : lex source' = .ok (ts', lexicon'))
    (hsame : ts.map (fun t => (t.kind, t.text)) = ts'.map (fun t => (t.kind, t.text))) (asked : Option String) :
    (∃ p p', compile source asked = .ok p ∧ compile source' asked = .ok p' ∧
        p.instructions.map (·.word) = p'.instructions.map (·.word) ∧ p.entry = p'.entry ∧ p.commands = p'.commands) ∨
      (∃ (problem : Problem) (i : Nat) (t t' : Token), ts[i]? = some t ∧ ts'[i]? = some t' ∧
        compile source asked = .error ⟨problem, t.position⟩ ∧ compile source' asked = .error ⟨problem, t'.position⟩) ∨
      ∃ name p, asked = some name ∧ compile source none = .ok p ∧ name ∉ p.commands.map (·.1) ∧
        compile source asked = .error ⟨.undefinedCommand name, 0⟩ ∧
        compile source' asked = .error ⟨.undefinedCommand name, 0⟩ := by
  rcases compile_alike (Reading.alike_of_lex h h' hsame) asked with hall | hmissing
  · generalize compile source asked = x at hall ⊢
    generalize compile source' asked = x' at hall ⊢
    cases hall with
    | ok hp => exact .inl ⟨_, _, rfl, rfl, hp.words, hp.entry, hp.commands⟩
    | error problem _ hq =>
      obtain ⟨i, t, t', ht, ht', rfl, rfl⟩ := hq
      exact .inr (.inl ⟨problem, i, t, t', ht, ht', rfl, rfl⟩)
  · exact .inr (.inr hmissing)

/-- Two texts with the tokens of one program, one of them with comments and line breaks, that are both refused at their calls of a
command that is not declared. -/
theorem compile_of_same_tokens_of_comments :
    ∃ ts ts' lexicon lexicon', lex "void main(){go();}" = .ok (ts, lexicon) ∧
      lex "// away\nvoid main() { go(/* far */); }" = .ok (ts', lexicon') ∧
      ts.map (fun t => (t.kind, t.text)) = ts'.map (fun t => (t.kind, t.text)) ∧
      ∃ (i : Nat) (t t' : Token), ts[i]? = some t ∧ ts'[i]? = some t' ∧ t.position = 12 ∧
        compile "void main(){go();}" none = .error ⟨.undefinedCommand "go", 12⟩ ∧
        compile "// away\nvoid main() { go(/* far */); }" none = .error ⟨.undefinedCommand "go", t'.position⟩ := by
  have hok : (lex "void main(){go();}").isOk = true := by decide +kernel
  have hok' : (lex "// away\nvoid main() { go(/* far */); }").isOk = true := by decide +kernel
  have hkinds : (lex "void main(){go();}").toOption.map (fun r => r.1.map fun t => (t.kind, t.text)) =
      (lex "// away\nvoid main() { go(/* far */); }").toOption.map (fun r => r.1.map fun t => (t.kind, t.text)) := by
    decide +kernel
  have hrefused : compile "void main(){go();}" none = .error ⟨.undefinedCommand "go", 12⟩ := by decide +kernel
  obtain ⟨⟨ts, lexicon⟩, h⟩ := exists_of_isOk hok
  obtain ⟨⟨ts', lexicon'⟩, h'⟩ := exists_of_isOk hok'
  rw [h, h'] at hkinds
  have hsame := Option.some.inj hkinds
  rcases compile_of_same_tokens h h' hsame none with ⟨p, _, hp, -⟩ | ⟨problem, i, t, t', ht, ht', he, he'⟩ | ⟨_, _, hnone, -⟩
  · nomatch hp.symm.trans hrefused
  · obtain ⟨rfl, hposition⟩ := SourceError.mk.inj (Except.error.inj (he.symm.trans hrefused))
    exact ⟨ts, ts', lexicon, lexicon', h, h', hsame, i, t, t', ht, ht', hposition, hrefused, he'⟩
  · nomatch hnone

end GridRobot
