import GridRobot.Proofs.Language.Completeness
import GridRobot.Proofs.Language.RefusalSoundness

/-!
# Where a condition is too complex

Behind tokens that are as they should be, a sensor with 64 results pending is refused (`declarations_tooComplex`). What is in front
of it is read because the parsers are complete, whatever follows.
-/

namespace GridRobot

/-- A token in front of whatever follows it. -/
def Tail.of (t : Token) (after : List Token) (ending : Ending) : Tail := ⟨t :: after, ending, t, rfl⟩

namespace Parser

variable {α β : Type}

section Refused

variable {target : Token} (hk : target.kind = .identifier) (hs : (Sensor.ofName? target.text).isSome)
  {after : List Token} {ending : Ending}

/-- The parser of conditions of a layer. -/
def conditionOf : Grammar.Layer → (room pending : Nat) → Parser Condition
  | .part, room => part room
  | .conjunction, room => chain .doubleAmpersand (part room) .and
  | .disjunction, room => disjunction (part room)

/-- The token ahead is what is looked at. -/
theorem TooComplex.of_current {f : Token → Parser β} {r : Reading} {t : Token} {position : Nat} (hn : r.next? = some t)
    (h : TooComplex (f t) r position) : TooComplex (Parser.current >>= f) r position :=
  .of_reads (reads_current.2 ⟨hn, rfl⟩) h

/-- What fails at once fails whatever would follow. -/
theorem TooComplex.first {p : Parser α} {f : α → Parser β} {r : Reading} {position : Nat} (h : TooComplex p r position) :
    TooComplex (p >>= f) r position :=
  tooComplex_bind.2 (.inl h)

/-- A chain fails in the operand behind its sign. -/
theorem chainFrom_tooComplex {tail : Tail} {sign : Kind} {operand : Parser Condition}
    {join : Condition → Condition → Nat → Condition} {left : Condition} {operator : Token} {us : List Token} {w position : Nat}
    (hk : operator.kind = sign) (h : TooComplex operand (.upTo tail us w) position) (fuel : Nat)
    (hfuel : (operator :: us).length ≤ fuel) :
    TooComplex (chainFrom sign operand join fuel left) (.upTo tail (operator :: us) w) position := by
  cases fuel with
  | zero => exact absurd hfuel (Nat.not_succ_le_zero _)
  | succ fuel =>
    refine .of_current rfl ?_
    rw [if_pos hk]
    exact .of_reads (reads_advance_upTo operator us w) h.first

include hk hs

/-- A sensor is refused where 64 results are pending. -/
theorem part_tooComplex {room pending : Nat} (hp : 64 ≤ pending) (w : Nat) :
    TooComplex (part room pending) (.upTo (.of target after ending) [] w) target.position := by
  obtain ⟨s, hs⟩ := Option.isSome_iff_exists.1 hs
  have hsensor : TooComplex (sensor pending) (.upTo (.of target after ending) [] w) target.position := by
    refine .of_current rfl ?_
    rw [hs]
    change TooComplex (if pending < 64 then _ else _) _ _
    rw [if_neg (Nat.not_lt.2 hp)]
    exact .of_current rfl rfl
  unfold part
  refine .of_current rfl ?_
  rw [hk]
  exact hsensor

/-- Behind tokens that lead to a sensor with 64 results pending a condition is refused; the induction is on these tokens. A left part
is read whatever follows it, so the chain it is in goes on with the operator behind it. -/
theorem condition_tooComplex {layer : Grammar.Layer} {room pending words reached : Nat} {ts : List Token}
    (h : Grammar.BeforeSensor layer room pending ts words reached) (hreached : 64 ≤ reached) {w : Nat}
    (hw : w + words ≤ 4096) :
    TooComplex (conditionOf layer room pending) (.upTo (.of target after ending) ts w) target.position := by
  induction h generalizing w with
  | here room pending => exact part_tooComplex hk hs hreached w
  | @negation bang room pending words reached ts hbang _ ih =>
    have hinner := ih hreached hw
    change TooComplex (part (room + 1) pending) _ _
    unfold part
    refine .of_current rfl ?_
    rw [hbang]
    exact .of_reads (reads_advance_upTo _ _ w) hinner.first
  | @group opening room pending words reached ts ho _ ih =>
    have hinner := ih hreached hw
    change TooComplex (part (room + 1) pending) _ _
    unfold part
    refine .of_current rfl ?_
    rw [ho]
    exact .of_reads (reads_advance_upTo _ _ w) hinner.first
  | single _ ih => exact (ih hreached hw).first
  | @and operator left room pending words reached ts us hleft hoperator _ ih =>
    obtain ⟨d, hspells, hd, hneed⟩ := hleft
    exact condition_complete (.of target after ending) hspells room pending (operator :: us) w hd hneed (by omega) _
      (chainFrom_tooComplex hoperator (ih hreached (by omega)))
  | only _ ih => exact (ih hreached hw).first
  | @or operator left room pending words reached ts us hleft hoperator _ ih =>
    obtain ⟨d, hspells, hd, hneed⟩ := hleft
    have hnot : NotAhead (.of target after ending) .doubleAmpersand (operator :: us) := by simp [NotAhead, hoperator]
    exact condition_complete (.of target after ending) hspells room pending (operator :: us) w hd hneed (by omega) hnot _
      (chainFrom_tooComplex hoperator (ih hreached (by omega)))

theorem test_tooComplex {opening : Token} {room words w : Nat} {ts : List Token} (ho : opening.kind = .openingParen)
    (h : Grammar.BeforeSensor .disjunction room 0 ts words 64) (hw : w + words ≤ 4096) :
    TooComplex (test room) (.upTo (.of target after ending) (opening :: ts) w) target.position := by
  have hinner : TooComplex (disjunction (part room) 0) (.upTo (.of target after ending) ts w) target.position :=
    condition_tooComplex hk hs h (Nat.le_refl 64) hw
  exact .of_reads (reads_expect_upTo ho ts w) hinner.first

/-- What is refused of tokens in front of a sensor with 64 results pending. -/
def Refused (tail : Tail) (position : Nat) : Grammar.Place → (room : Nat) → List Token → (words : Nat) → Prop
  | .statement, room, ts, words => ∀ w, w + words ≤ 4096 →
    TooComplex (statement room (block room)) (.upTo tail ts w) position
  | .conditional, room, ts, words => ∀ w fuel, w + words ≤ 4096 → ts.length ≤ fuel →
    TooComplex (conditional room (block room) fuel) (.upTo tail ts w) position
  | .block, room, ts, words => ∀ w, w + words ≤ 4096 → TooComplex (block room) (.upTo tail ts w) position

omit hk hs

/-- What fails behind a test fails behind its tokens. -/
theorem TooComplex.of_test {tail : Tail} {c : Condition} {ts us : List Token} {room w position : Nat}
    {f : Condition → Parser β} (hc : IsTest room c ts) (hw : w + c.size + 1 ≤ 4096)
    (h : TooComplex (f c) (.upTo tail us (w + c.size + 1)) position) :
    TooComplex (test room >>= fun c => Parser.reserve >>= fun _ => f c) (.upTo tail (ts ++ us) w) position := by
  obtain ⟨d, hspells, hd, hneed⟩ := hc
  exact .of_reads (test_complete tail room w hspells hd hneed (Nat.le_of_succ_le hw) us)
    (.of_reads (reads_reserve_upTo tail hw us) h)

/-- What fails behind a block fails behind its tokens. -/
theorem TooComplex.of_block {tail : Tail} {s : Statement} {closing : Token} {ts us : List Token} {room w position : Nat}
    {f : Block → Parser β} (hs : IsStatement (.block closing) room s ts) (hw : w + s.size ≤ 4096)
    (h : TooComplex (f (s, closing)) (.upTo tail us (w + s.size)) position) :
    TooComplex (block room >>= f) (.upTo tail (ts ++ us) w) position := by
  obtain ⟨d, hspells, hd, hproper⟩ := hs
  exact .of_reads (statement_complete tail hspells room us w ⟨hd, hproper.bounded, hproper.calls, hw⟩) h

/-- What tokens in front of a sensor begin with. -/
theorem head_of_beforeTest {place : Grammar.Place} {room words pending : Nat} {ts : List Token}
    (h : Grammar.BeforeTest pending place room ts words) :
    ∃ t us, ts = t :: us ∧ match place with
      | .statement => StartsStatement t.kind
      | .conditional => t.kind = .ifWord
      | .block => t.kind = .openingBrace := by
  induction h with
  | ifTest hk | ifBody hk | block hk => exact ⟨_, _, rfl, hk⟩
  | otherwise hk => exact ⟨_, _, List.append_assoc _ _ _, hk⟩
  | conditional _ ih =>
    obtain ⟨t, us, rfl, hk⟩ := ih
    exact ⟨t, us, rfl, .inr (.inl hk)⟩
  | whileTest hk | whileBody hk => exact ⟨_, _, rfl, .inr (.inr (.inl hk))⟩
  | repeatBody hk => exact ⟨_, _, rfl, .inr (.inr (.inr hk))⟩

/-- Behind `else` a block or another conditional is refused. -/
theorem alternative_tooComplex {tail : Tail} {elseWord : Token} {place : Grammar.Place} {room words position w : Nat}
    {further : Parser Statement} {ts : List Token} (helse : elseWord.kind = .elseWord)
    (hplace : place = .block ∨ place = .conditional) (hts : Grammar.BeforeTest 64 place room ts words) (hw : w < 4096)
    (hblock : place = .block → TooComplex (block room) (.upTo tail ts (w + 1)) position)
    (hfurther : place = .conditional → TooComplex further (.upTo tail ts (w + 1)) position) :
    TooComplex (alternative (block room) further) (.upTo tail (elseWord :: ts) w) position := by
  obtain ⟨t, us, rfl, ht⟩ := head_of_beforeTest hts
  refine .of_current rfl ?_
  rw [if_pos helse]
  refine .of_reads (reads_advance_upTo elseWord _ w) (.of_reads (reads_reserve_upTo tail hw _) (.of_current rfl ?_))
  rcases hplace with rfl | rfl
  · rw [show t.kind = .openingBrace from ht]
    exact (hblock rfl).first
  · rw [show t.kind = .ifWord from ht]
    exact (hfurther rfl).first

/-- Where a statement is ahead, the first one of those to be read fails, or the others behind it do. -/
theorem TooComplex.of_statements {p : Parser Statement} {fuel position : Nat} {r : Reading} {t : Token}
    (ht : r.next? = some t) (hk : StartsStatement t.kind)
    (h : TooComplex p r position ∨ ∃ first r', Reads p r first r' ∧ TooComplex (statements p fuel) r' position) :
    TooComplex (statements p (fuel + 1)) r position := by
  unfold statements
  refine .of_current ht ?_
  rcases hk with hk | hk | hk | hk <;>
  · rw [hk]
    rcases h with h | ⟨first, r', h₁, h⟩
    · exact h.first
    · exact .of_reads h₁ h.first

/-- The statements of a block are read up to the one that is refused. The induction is on those in front of it. -/
theorem statements_tooComplex {tail : Tail} {s : Statement} {ts us : List Token} {d room words position : Nat}
    (h : Grammar.SpellsStatement .body s ts d) (hd : d ≤ room) (hs : s.Proper)
    (hus : Grammar.BeforeTest 64 .statement room us words) (hrefused : Refused tail position .statement room us words)
    {w fuel : Nat} (hw : w + (s.size + words) ≤ 4096) (hfuel : (ts ++ us).length ≤ fuel) :
    TooComplex (statements (statement room (block room)) fuel) (.upTo tail (ts ++ us) w) position := by
  obtain ⟨u, us', rfl, hu⟩ := head_of_beforeTest hus
  induction s generalizing ts d w fuel with
  | nothing =>
    cases h
    cases fuel with
    | zero => exact absurd hfuel (Nat.not_succ_le_zero _)
    | succ fuel =>
      refine .of_statements rfl hu (.inl (hrefused w ?_))
      rwa [Statement.size, Nat.zero_add] at hw
  | andThen first rest _ ih =>
    obtain ⟨hfirst, hrest⟩ := Statement.Proper.andThen_iff.1 hs
    cases h with
    | @andThen _ _ ts₁ ts₂ d₁ d₂ h₁ h₂ =>
    rw [Statement.size] at hw
    have hread := statement_complete tail h₁ room (ts₂ ++ u :: us') w
      ⟨by omega, hfirst.bounded, hfirst.calls, by omega⟩ (notAhead_else_of_body h₂ hu.ne_else)
    obtain ⟨t, ts₁, rfl, ht⟩ := statement_head h₁
    cases fuel with
    | zero => exact absurd hfuel (Nat.not_succ_le_zero _)
    | succ fuel =>
      rw [List.append_assoc] at hfuel ⊢
      refine .of_statements rfl ht (.inr ⟨first, _, hread, ih h₂ (by omega) hrest (by omega) ?_⟩)
      simp only [List.cons_append, List.length_cons, List.length_append] at hfuel ⊢
      omega
  | act | call | ifThen | ifElse | whileDo | repeatTimes => cases h

include hk hs

/-- Behind tokens that lead to a sensor with 64 results pending a statement or a block is refused; the induction is on these tokens. -/
theorem place_tooComplex {place : Grammar.Place} {room words : Nat} {ts : List Token}
    (h : Grammar.BeforeTest 64 place room ts words) :
    Refused (.of target after ending) target.position place room ts words := by
  induction h with
  | @ifTest keyword opening room words ts hif ho htest =>
    intro w fuel hw _
    obtain ⟨further, hfurther⟩ := exists_conditionalThen room (block room) fuel
    rw [hfurther]
    exact .of_reads (reads_advance_upTo keyword _ w) (test_tooComplex hk hs ho htest hw).first
  | @ifBody keyword test room words ts us hif htest _ ih =>
    intro w fuel hw _
    obtain ⟨further, hfurther⟩ := exists_conditionalThen room (block room) fuel
    rw [hfurther]
    exact .of_reads (reads_advance_upTo keyword _ w)
      (.of_test htest (by omega) (TooComplex.first (ih (w + test.size + 1) (by omega))))
  | @otherwise keyword closing elseWord test body place room words ts us vs hif htest hbody helse hplace hvs ih =>
    intro w fuel hw hfuel
    cases fuel with
    | zero => exact absurd hfuel (Nat.not_succ_le_zero _)
    | succ fuel =>
      have halternative : TooComplex (alternative (block room) (conditional room (block room) fuel))
          (.upTo (.of target after ending) (elseWord :: vs) (w + test.size + 1 + body.size)) target.position := by
        refine alternative_tooComplex helse hplace hvs (by omega) ?_ ?_
        · rintro rfl
          exact ih _ (by omega)
        · rintro rfl
          simp only [List.cons_append, List.length_cons, List.length_append] at hfuel
          exact ih _ fuel (by omega) (by omega)
      rw [List.append_assoc, List.cons_append]
      exact .of_reads (reads_advance_upTo keyword _ w)
        (.of_test htest (by omega) (.of_block hbody (by omega) halternative.first))
  | conditional hts ih =>
    intro w hw
    obtain ⟨t, us, rfl, hif⟩ := head_of_beforeTest hts
    refine .of_current rfl ?_
    rw [show t.kind = .ifWord from hif]
    exact ih w _ hw (by simp [Reading.upTo])
  | @whileTest keyword opening room words ts hwhile ho htest =>
    intro w hw
    refine .of_current rfl ?_
    rw [hwhile]
    exact .of_reads (reads_advance_upTo keyword _ w) (test_tooComplex hk hs ho htest hw).first
  | @whileBody keyword test room words ts us hwhile htest _ ih =>
    intro w hw
    refine .of_current rfl ?_
    rw [hwhile]
    exact .of_reads (reads_advance_upTo keyword _ w)
      (.of_test htest (by omega) (TooComplex.first (ih (w + test.size + 1) (by omega))))
  | @repeatBody keyword opening number closing count room words ts hrepeat ho hnumber hvalue hrange hc _ ih =>
    intro w hw
    refine .of_current rfl ?_
    rw [hrepeat]
    refine .of_reads (reads_advance_upTo keyword _ w) (.of_reads (reads_expect_upTo ho _ w)
      (.of_reads (reads_expect_upTo hnumber _ w) ?_))
    rw [repeatCount?_eq_some.2 ⟨hvalue, hrange⟩]
    exact .of_reads (reads_expect_upTo hc _ w) (.of_reads (reads_reserve_upTo _ (by omega) _)
      (TooComplex.first (ih (w + 1) (by omega))))
  | @block opening s room words ts us ho hbody hus ih =>
    intro w hw
    obtain ⟨d, hspells, hd, hproper⟩ := hbody
    rw [List.cons_append]
    refine .of_reads (reads_expect_upTo ho _ w) ?_
    exact statements_tooComplex hspells hd hproper hus ih hw (by simp [Reading.upTo])

theorem declaration_tooComplex {declared : List Declaration} {ts : List Token} {words w : Nat}
    (h : Grammar.BeginsCommand 64 (declared.map (·.name)) ts words) (hw : w + words ≤ 4096) :
    TooComplex (declaration declared) (.upTo (.of target after ending) ts w) target.position := by
  obtain @⟨voidWord, name, opening, closing, ts, words, -, hname, ho, hc, hfresh, hnew, hts⟩ := h
  have hany : declared.any (fun d => d.name == name.text) = false := by
    rw [List.any_eq_false]
    intro d hd he
    exact hnew (List.mem_map.2 ⟨d, hd, beq_iff_eq.1 he⟩)
  have hblock : TooComplex (block nestingLimit) (.upTo (.of target after ending) ts w) target.position :=
    place_tooComplex hk hs hts w hw
  refine .of_reads (reads_advance_upTo voidWord _ w) (.of_reads (reads_expect_upTo hname _ w) ?_)
  dsimp only
  rw [isBuiltin_eq_false.2 hfresh, if_neg (by simp)]
  refine .of_reads (reads_emptyParens_upTo ho hc _ w) ?_
  rw [hany, if_neg (by simp)]
  exact hblock.first

/-- Whole commands are read up to the one that is refused. The induction is on those in front of it. -/
theorem declarations_tooComplex {ds declared : List Declaration} {ts us : List Token} {words w fuel : Nat}
    (h : Grammar.Commands (declared.map (·.name)) ds ts)
    (hus : Grammar.BeginsCommand 64 ((declared ++ ds).map (·.name)) us words)
    (hw : w + (Declaration.sizeAll ds + words) ≤ 4096) (hfuel : (ts ++ us).length ≤ fuel) :
    TooComplex (declarations fuel declared) (.upTo (.of target after ending) (ts ++ us) w) target.position := by
  induction ds generalizing declared ts w fuel with
  | nil =>
    obtain ⟨⟨depth, hspells, -⟩, -, -, -⟩ := h
    cases hspells
    rw [List.append_nil] at hus
    rw [Declaration.sizeAll, Nat.zero_add] at hw
    have hfails : TooComplex (declaration declared) (.upTo (.of target after ending) us w) target.position :=
      declaration_tooComplex hk hs hus hw
    obtain @⟨voidWord, name, opening, closing, us, words, hvoid, -⟩ := hus
    cases fuel with
    | zero => exact absurd hfuel (Nat.not_succ_le_zero _)
    | succ fuel =>
      unfold declarations
      refine .of_current rfl ?_
      rw [hvoid]
      exact hfails.first
  | cons d ds ih =>
    obtain ⟨⟨depth, hspells, hdepth⟩, hproper, hfresh, hdistinct⟩ := h
    obtain ⟨hproper₁, hproper₂⟩ := List.forall_mem_cons.1 hproper
    obtain ⟨hfresh₁, hfresh₂⟩ := List.forall_mem_cons.1 hfresh
    rw [Declaration.sizeAll] at hw
    have hnew : d.name ∉ declared.map (·.name) := by
      intro hmem
      exact (List.nodup_append.1 hdistinct).2.2 _ hmem _ List.mem_cons_self rfl
    rw [← List.singleton_append, ← List.append_assoc] at hus
    rw [List.map_cons, ← List.singleton_append, ← List.append_assoc] at hdistinct
    cases hspells with
    | @cons _ _ ts₁ ts₂ d₁ d₂ hd hds =>
    have hbody : w + 1 + d.body.size ≤ 4096 := by
      rw [Declaration.size] at hw
      omega
    have hread := declaration_complete (.of target after ending) hd
      ⟨show d₁ ≤ 256 by omega, hproper₁.bounded, hproper₁.calls, hbody⟩ hfresh₁ hnew (ts₂ ++ us)
    have hcommands : Grammar.Commands ((declared ++ [d]).map (·.name)) ds ts₂ :=
      ⟨⟨d₂, hds, by omega⟩, hproper₂, hfresh₂, by rwa [List.map_append]⟩
    have hrest : ∀ fuel, (ts₂ ++ us).length ≤ fuel → TooComplex (declarations fuel (declared ++ [d]))
        (.upTo (.of target after ending) (ts₂ ++ us) (w + d.size)) target.position :=
      fun fuel hfuel => ih hcommands hus (by omega) hfuel
    rw [List.append_assoc] at hfuel ⊢
    cases hd with
    | void hvoid =>
    cases fuel with
    | zero => exact absurd hfuel (Nat.not_succ_le_zero _)
    | succ fuel =>
      simp only [List.cons_append, List.length_cons, List.length_append] at hfuel
      unfold declarations
      refine .of_current rfl ?_
      rw [hvoid]
      exact .of_reads hread (hrest fuel (by rw [List.length_append]; omega))

end Refused

end Parser

end GridRobot
