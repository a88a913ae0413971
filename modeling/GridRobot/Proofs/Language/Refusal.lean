import GridRobot.Proofs.Language.Acceptance
import GridRobot.Proofs.Language.RefusalCompleteness
import GridRobot.Proofs.Language.Tokens

/-!
# Texts with conditions that are too complex

A text is refused because a condition is too complex exactly where a sensor is met with 64 results pending, behind nothing that is
wrong otherwise (`refused_iff_pending`). The lexer and the assembler never refuse a text this way. So a program with nothing else
wrong is refused this way exactly if one of its tests needs more than 64 results pending (`refused_iff_need`).
-/

namespace GridRobot

/-- What is wrong with the tokens of a text has nothing to do with conditions. -/
theorem Lexer.problem_of_next {lx : Lexer} {e : SourceError} (h : lx.next.1 = .error e) :
    e.problem ≠ .conditionTooComplex := by
  unfold next at h
  split at h
  · rename_i e' cur hskip
    obtain rfl : e' = e := Except.error.inj h
    have hgap : (lx.cursor.skipGap).1 = .error e' := congrArg Prod.fst hskip
    rcases Cursor.skip_eq_error hgap with he | he <;>
    · rw [he]
      exact nofun
  · unfold scan at h
    split at h
    · nomatch h
    · split at h
      · nomatch h
      · split at h
        · nomatch h
        · split at h
          · nomatch h
          · rename_i problem hsign
            obtain rfl := Except.error.inj h
            rcases sign_eq_error hsign with rfl | rfl | rfl <;>
            · exact nofun

/-- No lexical error says that a condition is too complex. -/
theorem Scan.problem_of_read {fuel : Nat} {lx : Lexer} {e : SourceError} (h : (read fuel lx).ending = .error e) :
    e.problem ≠ .conditionTooComplex := by
  induction fuel generalizing lx with
  | zero => nomatch h
  | succ fuel ih =>
    unfold read at h
    split at h
    · rename_i e' lx' hnext
      obtain rfl := Ending.error.inj h
      exact Lexer.problem_of_next (congrArg Prod.fst hnext)
    · split at h
      · nomatch h
      · exact ih h

/-- A text at its beginning. -/
theorem Reading.regular_ofText (source : String) : (Reading.ofText source).Regular where
  closed := fun _ ht => Scan.kind_of_ending_read ht
  lexical := fun _ he => Scan.problem_of_read he
  fits := show 2 ≤ 4096 by omega

/-- Parsing refuses a text as the declarations from its beginning on are refused. -/
theorem parse_eq_error_iff {source : String} {position : Nat} : parse source = .error ⟨.conditionTooComplex, position⟩ ↔
    Parser.TooComplex (Parser.declarations (Reading.ofText source).tokens.length []) (Reading.ofText source) position := by
  change (Prod.fst <$> Parser.declarations (Reading.ofText source).tokens.length [] (Reading.ofText source)) = _ ↔ _
  unfold Parser.TooComplex
  cases Parser.declarations (Reading.ofText source).tokens.length [] (Reading.ofText source) with
  | error e => exact ⟨fun h => congrArg Except.error (Except.error.inj h), fun h => congrArg Except.error (Except.error.inj h)⟩
  | ok x => exact ⟨nofun, nofun⟩

/-- What is wrong behind the parser has nothing to do with conditions. -/
theorem Program.problem_of_pushAll {p : Program} {is : List Instruction} {e : SourceError} (h : p.pushAll is = .error e) :
    e.problem ≠ .conditionTooComplex := by
  induction is generalizing p with
  | nil => cases h
  | cons i rest ih =>
    rcases bind_eq_error.1 h with h | ⟨⟨a, q⟩, -, h⟩
    · obtain rfl := push_eq_error h
      decide
    · exact ih h

/-- Behind the parser, nothing is refused because of a condition. -/
theorem Compiler.problem_of_assembleAll {ds : List Declaration} {asked : Option String} {e : SourceError}
    (h : assembleAll ds asked = .error e) : e.problem ≠ .conditionTooComplex := by
  unfold assembleAll at h
  cases hcall : undefinedCall? ds with
  | some c =>
    rw [hcall] at h
    obtain rfl := Except.error.inj h
    exact nofun
  | none =>
    rw [hcall] at h
    rcases bind_eq_error.1 h with h | ⟨entry, -, h⟩
    · unfold entryAddress at h
      split at h
      · split at h
        · nomatch h
        · obtain rfl := Except.error.inj h
          exact nofun
      · nomatch h
    · rcases bind_eq_error.1 h with h | ⟨q, -, h⟩
      · exact Program.problem_of_pushAll h
      · nomatch h

/-- Compiling refuses a text this way exactly if parsing does. -/
theorem compile_eq_error_iff {source : String} {asked : Option String} {position : Nat} :
    compile source asked = .error ⟨.conditionTooComplex, position⟩ ↔
      parse source = .error ⟨.conditionTooComplex, position⟩ := by
  refine bind_eq_error.trans ⟨?_, .inl⟩
  rintro (h | ⟨ds, -, h⟩)
  · exact h
  · exact absurd rfl (Compiler.problem_of_assembleAll h)

/-- A text is refused because a condition is too complex exactly at a sensor with 64 results pending. -/
theorem refused_iff_pending (source : String) (asked : Option String) (position : Nat) :
    compile source asked = .error ⟨.conditionTooComplex, position⟩ ↔
      ∃ before sensor after, (Scan.of source).tokens = before ++ sensor :: after ∧ sensor.kind = .identifier ∧
        (Sensor.ofName? sensor.text).isSome ∧ sensor.position = position ∧ Grammar.Pending 64 before := by
  rw [compile_eq_error_iff, parse_eq_error_iff]
  constructor
  · intro h
    have hnone : (([] : List Declaration).map (·.name)).Nodup := List.nodup_nil
    obtain ⟨ds, ts, us, words, ⟨sensor, after, htokens, hk, hs, hposition, hw⟩, hcommands, hus⟩ :=
      Parser.declarations_refuses (Reading.regular_ofText source) hnone h
    exact ⟨ts ++ us, sensor, after, htokens, hk, hs, hposition, .behind hcommands hus hw⟩
  · rintro ⟨_, sensor, after, htokens, hk, hs, rfl, @⟨ds, ts, us, words, hcommands, hus, hw⟩⟩
    have hstart : Reading.ofText source =
        .upTo (.of sensor after (Scan.of source).ending) (ts ++ us) Parser.headerSize := by
      rw [Reading.ofText, htokens]
      rfl
    rw [hstart]
    refine Parser.declarations_tooComplex hk hs hcommands hus hw ?_
    exact (List.prefix_append _ _).length_le

/-- An admissible program has nothing else wrong with it either. -/
theorem Grammar.Admissible.ordinary {ds : List Declaration} {depth : Nat} (h : Grammar.Admissible ds depth) :
    Grammar.Ordinary ds depth :=
  ⟨h.fresh, h.distinct, fun d hd => (h.bounded d hd).counted, h.sensor_of_call, h.shallow, h.fits⟩

/-- A text that spells a program with nothing wrong apart from its tests is refused this way exactly if a test needs too much. -/
theorem refused_iff_need {source : String} (asked : Option String) {ts : List Token} {eof : Token} {lexicon : Lexicon}
    {ds : List Declaration} {depth : Nat} (hlex : lex source = .ok (ts ++ [eof], lexicon))
    (hs : Grammar.SpellsProgram ds ts depth) (h : Grammar.Ordinary ds depth) :
    (∃ position, compile source asked = .error ⟨.conditionTooComplex, position⟩) ↔
      ∃ d ∈ ds, ∃ c ∈ d.body.tests, 64 < c.need := by
  constructor
  · rintro ⟨position, hrefused⟩
    refine Classical.byContradiction fun hnone => ?_
    have hsimple : ∀ d ∈ ds, ∀ c ∈ d.body.tests, c.need ≤ 64 :=
      fun d hd c hc => Nat.le_of_not_lt fun hlt => hnone ⟨d, hd, c, hc, hlt⟩
    have hbounds : Grammar.InBounds ds depth :=
      ⟨h.fresh, h.distinct, fun d hd => ⟨hsimple d hd, h.counted d hd⟩, h.shallow, h.fits⟩
    have hparse := parse_complete hlex hs hbounds h.calls
    nomatch hparse.symm.trans (compile_eq_error_iff.1 hrefused)
  · rintro ⟨d, hd, c, hc, hneed⟩
    have hcomplex : ¬ ∀ d ∈ ds, ∀ c ∈ d.body.tests, c.need ≤ 64 := fun hall => Nat.not_le.2 hneed (hall d hd c hc)
    obtain ⟨before, sensor, after, rfl, hk, hsensor, hpending⟩ := h.pending hs hcomplex
    have htokens : (Scan.of source).tokens = before ++ sensor :: after := (lex_eq_ok_iff.1 hlex).1
    exact ⟨sensor.position,
      (refused_iff_pending source asked sensor.position).2 ⟨before, sensor, after, htokens, hk, hsensor, rfl, hpending⟩⟩

end GridRobot
