import GridRobot.Proofs.Language.Layout

/-!
# What the compiler accepts

A text is compiled where its tokens spell a program of the grammar that is admissible, and nowhere else. Soundness and
completeness of the parser give the two directions as far as the parser goes; calls of commands that are not declared are
refused behind it, and what was read fits into memory.
-/

namespace GridRobot

/-- What is compiled is spelled by the tokens of the text and is admissible. -/
theorem admissible_of_compile {source : String} {entry : Option String} {p : Program}
    (h : compile source entry = .ok p) :
    ∃ ts eof lexicon ds depth, lex source = .ok (ts ++ [eof], lexicon) ∧ Grammar.SpellsProgram ds ts depth ∧
      Grammar.Admissible ds depth ∧ parse source = .ok ds ∧ Compiler.assembleAll ds entry = .ok p := by
  obtain ⟨ds, hp, ha⟩ := compile_eq_ok.1 h
  obtain ⟨ts, eof, lexicon, depth, hlex, hs, hb⟩ := parse_sound hp
  have hdefined := Compiler.undefinedCall?_eq_none.1 (Compiler.assembleAll_eq_ok.1 ha).1
  exact ⟨ts, eof, lexicon, ds, depth, hlex, hs, ⟨hb, hdefined⟩, hp, ha⟩

/-- A command that is called in an admissible program does not have the name of a sensor. -/
theorem Grammar.Admissible.sensor_of_call {ds : List Declaration} {depth : Nat} (h : Grammar.Admissible ds depth) :
    ∀ d ∈ ds, ∀ c ∈ d.body.calls, Sensor.ofName? c.1 = none := by
  intro d hd c hc
  obtain ⟨d', hd', hn⟩ := List.mem_map.1 (h.defined d hd c hc)
  rw [← hn]
  exact (h.fresh d' hd').2

/-- An admissible program that is entered as usual fits into memory. -/
theorem Grammar.Admissible.exists_program {ds : List Declaration} {depth : Nat} (h : Grammar.Admissible ds depth) :
    ∃ p, Compiler.assembleAll ds none = .ok p := by
  obtain ⟨p, hp, -⟩ := Compiler.exists_assembleAll h.fits (Compiler.undefinedCall?_eq_none.2 h.defined)
    (show Compiler.entryAddress _ none = .ok _ from rfl)
  exact ⟨p, hp⟩

/-- The compiler accepts exactly its language: the texts that lex, and whose tokens spell an admissible program. -/
theorem compile_accepts_iff (source : String) :
    (∃ p, compile source none = .ok p) ↔
      ∃ ts eof lexicon, lex source = .ok (ts ++ [eof], lexicon) ∧
        ∃ ds depth, Grammar.SpellsProgram ds ts depth ∧ Grammar.Admissible ds depth := by
  constructor
  · rintro ⟨p, h⟩
    obtain ⟨ts, eof, lexicon, ds, depth, hlex, hs, ha, _⟩ := admissible_of_compile h
    exact ⟨ts, eof, lexicon, hlex, ds, depth, hs, ha⟩
  · rintro ⟨ts, eof, lexicon, hlex, ds, depth, hs, ha⟩
    obtain ⟨p, hp⟩ := ha.exists_program
    exact ⟨p, compile_eq_ok.2 ⟨ds, parse_complete hlex hs ha.toInBounds ha.sensor_of_call, hp⟩⟩

end GridRobot
