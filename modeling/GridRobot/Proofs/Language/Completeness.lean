import GridRobot.Proofs.Language.Soundness

/-!
# The parser reads all of the grammar

Tokens that the grammar spells are read as what they spell, whatever follows them, as long as the bounds are kept. Where a rule
may go on with an operator or with `else`, what follows must not begin with it.

The induction is on the derivation. An operator chain is read from the left while the grammar takes its last operand off, so the
statement about a chain is one about how its reading goes on: what can be read behind a left part can be read behind its tokens.
-/

namespace GridRobot

/-- What a text goes on with, the next token of which can be seen: further tokens, or its end. -/
structure Tail where
  tokens : List Token
  ending : Ending
  head : Token
  seen : (Reading.mk tokens ending 0).next? = some head

/-- The end of a text that lexes. -/
def Tail.ofEnd (eof : Token) : Tail := ⟨[], .endOfInput eof, eof, rfl⟩

/-- Tokens in front of a tail, with some words counted. -/
def Reading.upTo (tail : Tail) (ts : List Token) (words : Nat) : Reading := ⟨ts ++ tail.tokens, tail.ending, words⟩

/-- What comes next does not depend on the words that are counted. -/
theorem Reading.next?_words {ts : List Token} {ending : Ending} (m n : Nat) :
    (Reading.mk ts ending m).next? = (Reading.mk ts ending n).next? := by
  cases ts with
  | nil => cases ending <;> rfl
  | cons t ts => rfl

namespace Parser

variable {α : Type} {tail : Tail}

/-- The token ahead is not of a kind. -/
def NotAhead (tail : Tail) (kind : Kind) (ts : List Token) : Prop := (ts.headD tail.head).kind ≠ kind

/-- The token ahead is the first one, or the one behind if there is none. -/
theorem next?_upTo (ts : List Token) (w : Nat) : (Reading.upTo tail ts w).next? = some (ts.headD tail.head) := by
  cases ts with
  | nil => exact (Reading.next?_words w 0).trans tail.seen
  | cons t ts => rfl

/-! ## Single tokens -/

/-- The first token can be taken. -/
theorem reads_advance_upTo (t : Token) (ts : List Token) (w : Nat) :
    Reads advance (.upTo tail (t :: ts) w) t (.upTo tail ts w) :=
  reads_advance.2 ⟨rfl, rfl, by rw [next?_upTo]; rfl⟩

/-- The first token can be taken as one of its kind. -/
theorem reads_expect_upTo {kind : Kind} {t : Token} (h : t.kind = kind) (ts : List Token) (w : Nat) :
    Reads (expect kind) (.upTo tail (t :: ts) w) t (.upTo tail ts w) :=
  reads_expect.2 ⟨h, reads_advance_upTo t ts w⟩

/-- An opening and a closing parenthesis can be taken. -/
theorem reads_emptyParens_upTo {opening closing : Token} (ho : opening.kind = .openingParen)
    (hc : closing.kind = .closingParen) (ts : List Token) (w : Nat) :
    Reads emptyParens (.upTo tail (opening :: closing :: ts) w) () (.upTo tail ts w) :=
  reads_bind.2 ⟨_, _, reads_expect_upTo ho _ w, reads_bind.2 ⟨_, _, reads_expect_upTo hc ts w,
    reads_pure.2 ⟨rfl, rfl⟩⟩⟩

/-- A word can be counted while memory has room for it. -/
theorem reads_reserve_upTo (tail : Tail) {w : Nat} (hw : w < 4096) (ts : List Token) :
    Reads reserve (.upTo tail ts w) () (.upTo tail ts (w + 1)) :=
  reads_reserve.2 ⟨hw, rfl⟩

/-! ## Conditions -/

/-- The call of a sensor can be read while there is room for its result. -/
theorem sensor_complete (tail : Tail) {name opening closing : Token} {s : Sensor} (hs : Sensor.ofName? name.text = some s)
    (ho : opening.kind = .openingParen) (hc : closing.kind = .closingParen) {pending w : Nat} (hp : pending < 64)
    (hw : w < 4096) (rest : List Token) :
    Reads (sensor pending) (.upTo tail (name :: opening :: closing :: rest) w) (.sense s name.line)
      (.upTo tail rest (w + 1)) := by
  refine reads_current_bind.2 ⟨name, rfl, ?_⟩
  rw [hs]
  change Reads (if pending < 64 then _ else _) _ _ _
  rw [if_pos hp]
  exact reads_bind.2 ⟨_, _, reads_advance_upTo _ _ w, reads_bind.2 ⟨_, _, reads_emptyParens_upTo ho hc rest w,
    reads_bind.2 ⟨_, _, reads_reserve_upTo tail hw rest, reads_pure.2 ⟨rfl, rfl⟩⟩⟩⟩

section Chain

variable {sign : Kind} {operand : Nat → Parser Condition} {join : Condition → Condition → Nat → Condition}
  {pending w : Nat} {left right : Condition} {rest us : List Token} {r : Reading}
  {x : Except SourceError (Condition × Reading)}

/-- Behind its first operand a chain goes on. -/
theorem chain_eq (hfirst : Reads (operand pending) r left (.upTo tail rest w))
    (h : ∀ fuel, rest.length ≤ fuel → chainFrom sign (operand (pending + 1)) join fuel left (.upTo tail rest w) = x) :
    chain sign operand join pending r = x := by
  refine (bind_of_reads hfirst).trans (h _ ?_)
  rw [Reading.upTo, List.length_append]
  exact Nat.le_add_right _ _

/-- A sign and an operand are taken into the left part. -/
theorem chainFrom_sign {operator : Token} (hk : operator.kind = sign) (hw : w + right.size < 4096)
    (hright : Reads (operand (pending + 1)) (.upTo tail (us ++ rest) w) right (.upTo tail rest (w + right.size)))
    (h : ∀ fuel, rest.length ≤ fuel → chainFrom sign (operand (pending + 1)) join fuel
      (join left right operator.line) (.upTo tail rest (w + right.size + 1)) = x) :
    ∀ fuel, (operator :: us ++ rest).length ≤ fuel → chainFrom sign (operand (pending + 1)) join fuel left
      (.upTo tail (operator :: us ++ rest) w) = x := by
  intro fuel hfuel
  cases fuel with
  | zero => simp at hfuel
  | succ fuel =>
    refine (bind_of_reads (reads_current.2 ⟨rfl, rfl⟩)).trans ?_
    rw [if_pos hk]
    refine (bind_of_reads (reads_advance_upTo operator _ w)).trans ?_
    refine (bind_of_reads hright).trans ?_
    refine (bind_of_reads (reads_reserve_upTo tail hw rest)).trans (h fuel ?_)
    simp at hfuel
    omega

/-- A chain ends where its sign is not ahead. -/
theorem reads_chainFrom_end (h : NotAhead tail sign rest) (fuel : Nat) :
    Reads (chainFrom sign (operand (pending + 1)) join fuel left) (.upTo tail rest w) left (.upTo tail rest w) := by
  cases fuel with
  | zero => exact reads_pure.2 ⟨rfl, rfl⟩
  | succ fuel =>
    refine reads_current_bind.2 ⟨_, next?_upTo rest w, ?_⟩
    rw [if_neg h]
    exact reads_pure.2 ⟨rfl, rfl⟩

end Chain

/-- What is read of tokens that spell a condition. On its own a part is read; of a chain it is said that what comes of it behind
its tokens is what comes of it as it goes on there. -/
def CompleteCondition (tail : Tail) : Grammar.Layer → Condition → List Token → Nat → Prop
  | .part, c, ts, d => ∀ room pending rest w, d ≤ room → c.need + pending ≤ 64 → w + c.size ≤ 4096 →
    Reads (part room pending) (.upTo tail (ts ++ rest) w) c (.upTo tail rest (w + c.size))
  | .conjunction, c, ts, d => ∀ room pending rest w, d ≤ room → c.need + pending ≤ 64 → w + c.size ≤ 4096 → ∀ x,
    (∀ fuel, rest.length ≤ fuel → chainFrom .doubleAmpersand (part room (pending + 1)) .and fuel c
      (.upTo tail rest (w + c.size)) = x) →
    chain .doubleAmpersand (part room) .and pending (.upTo tail (ts ++ rest) w) = x
  | .disjunction, c, ts, d => ∀ room pending rest w, d ≤ room → c.need + pending ≤ 64 → w + c.size ≤ 4096 →
    NotAhead tail .doubleAmpersand rest → ∀ x,
    (∀ fuel, rest.length ≤ fuel → chainFrom .doubleBar
      (chain .doubleAmpersand (part room) .and (pending + 1)) .or fuel c (.upTo tail rest (w + c.size)) = x) →
    disjunction (part room) pending (.upTo tail (ts ++ rest) w) = x

/-- A conjunction can be read where it is not followed by its sign. -/
theorem CompleteCondition.conjunction {c : Condition} {ts : List Token} {d : Nat}
    (h : CompleteCondition tail .conjunction c ts d) (room pending : Nat) (rest : List Token) {w : Nat} (hd : d ≤ room)
    (hn : c.need + pending ≤ 64) (hw : w + c.size ≤ 4096) (ha : NotAhead tail .doubleAmpersand rest) :
    Reads (chain .doubleAmpersand (part room) .and pending) (.upTo tail (ts ++ rest) w) c
      (.upTo tail rest (w + c.size)) :=
  h room pending rest w hd hn hw _ fun fuel _ => reads_chainFrom_end ha fuel

/-- A disjunction can be read where it is followed by neither sign. -/
theorem CompleteCondition.disjunction {c : Condition} {ts : List Token} {d : Nat}
    (h : CompleteCondition tail .disjunction c ts d) (room pending : Nat) (rest : List Token) {w : Nat} (hd : d ≤ room)
    (hn : c.need + pending ≤ 64) (hw : w + c.size ≤ 4096) (ha : NotAhead tail .doubleAmpersand rest)
    (ho : NotAhead tail .doubleBar rest) :
    Reads (disjunction (part room) pending) (.upTo tail (ts ++ rest) w) c (.upTo tail rest (w + c.size)) :=
  h room pending rest w hd hn hw ha _ fun fuel _ => reads_chainFrom_end ho fuel

/-- Whatever the grammar spells as a condition can be read in its layer. -/
theorem condition_complete (tail : Tail) {layer : Grammar.Layer} {c : Condition} {ts : List Token} {d : Nat}
    (h : Grammar.SpellsCondition layer c ts d) : CompleteCondition tail layer c ts d := by
  induction h with
  | @sensor name opening closing s hk hs ho hc =>
    intro room pending rest w hd hn hw
    have hp : pending < 64 := by simp only [Condition.need] at hn; omega
    have hr := sensor_complete tail hs ho hc hp hw rest
    unfold part
    refine reads_current_bind.2 ⟨name, rfl, ?_⟩
    rw [hk]
    exact hr
  | @negation bang c ts d hk _ ih =>
    intro room pending rest w hd hn hw
    cases room with
    | zero => exact absurd hd (Nat.not_succ_le_zero _)
    | succ room =>
      have hw' : w + c.size < 4096 := hw
      unfold part
      refine reads_current_bind.2 ⟨bang, rfl, ?_⟩
      rw [hk]
      exact reads_bind.2 ⟨_, _, reads_advance_upTo bang _ w, reads_bind.2 ⟨_, _,
        ih room pending rest w (Nat.le_of_succ_le_succ hd) hn (Nat.le_of_lt hw'), reads_bind.2 ⟨_, _,
        reads_reserve_upTo tail hw' rest, reads_pure.2 ⟨rfl, rfl⟩⟩⟩⟩
  | @group opening closing c ts d hk _ hc ih =>
    intro room pending rest w hd hn hw
    cases room with
    | zero => exact absurd hd (Nat.not_succ_le_zero _)
    | succ room =>
      have hr := ih.disjunction room pending (closing :: rest) (Nat.le_of_succ_le_succ hd) hn hw
        (by simp [NotAhead, hc]) (by simp [NotAhead, hc])
      rw [List.append_assoc, List.cons_append]
      unfold part
      refine reads_current_bind.2 ⟨opening, rfl, ?_⟩
      rw [hk]
      exact reads_bind.2 ⟨_, _, reads_advance_upTo opening _ w, reads_bind.2 ⟨_, _, hr, reads_bind.2 ⟨_, _,
        reads_expect_upTo hc rest _, reads_pure.2 ⟨rfl, rfl⟩⟩⟩⟩
  | single _ ih =>
    intro room pending rest w hd hn hw x h
    exact chain_eq (ih room pending rest w hd hn hw) h
  | @and operator left right ts us d e _ hk _ ihl ihr =>
    intro room pending rest w hd hn hw x h
    simp only [Condition.need, Condition.size] at hn hw h
    have hl := ihl room pending (operator :: us ++ rest) w (by omega) (by omega) (by omega) x
    have hr := ihr room (pending + 1) rest (w + left.size) (by omega) (by omega) (by omega)
    rw [List.append_assoc]
    apply hl
    exact chainFrom_sign hk (by omega) hr (by simpa only [Nat.add_assoc] using h)
  | only _ ih =>
    intro room pending rest w hd hn hw ha x h
    exact chain_eq (ih.conjunction room pending rest hd hn hw ha) h
  | @or operator left right ts us d e _ hk _ ihl ihr =>
    intro room pending rest w hd hn hw ha x h
    simp only [Condition.need, Condition.size] at hn hw h
    have hl := ihl room pending (operator :: us ++ rest) w (by omega) (by omega) (by omega)
      (by simp [NotAhead, hk]) x
    have hr := ihr.conjunction room (pending + 1) rest (w := w + left.size) (by omega)
      (by omega) (by omega) ha
    rw [List.append_assoc]
    apply hl
    exact chainFrom_sign hk (by omega) hr (by simpa only [Nat.add_assoc] using h)

/-- Whatever the grammar spells as a test can be read. -/
theorem test_complete (tail : Tail) {c : Condition} {ts : List Token} {d : Nat} (room w : Nat) (h : Grammar.SpellsTest c ts d) (hd : d ≤ room)
    (hn : c.need ≤ 64) (hw : w + c.size ≤ 4096) (rest : List Token) :
    Reads (test room) (.upTo tail (ts ++ rest) w) c (.upTo tail rest (w + c.size)) := by
  obtain ⟨ho, hs, hc⟩ := h
  rename_i opening closing ts
  have hr := (condition_complete tail hs).disjunction room 0 (closing :: rest) hd hn hw
    (by simp [NotAhead, hc]) (by simp [NotAhead, hc])
  rw [List.append_assoc, List.cons_append]
  exact reads_bind.2 ⟨_, _, reads_expect_upTo ho _ w, reads_bind.2 ⟨_, _, hr, reads_bind.2 ⟨_, _,
    reads_expect_upTo hc rest _, reads_pure.2 ⟨rfl, rfl⟩⟩⟩⟩

/-! ## What statements begin with -/

/-- The kinds of tokens that a statement begins with. -/
def StartsStatement (k : Kind) : Prop := k = .identifier ∨ k = .ifWord ∨ k = .whileWord ∨ k = .repeatWord

/-- A conditional begins with its keyword. -/
theorem conditional_head {s : Statement} {ts : List Token} {d : Nat} (h : Grammar.SpellsStatement .conditional s ts d) :
    ∃ t us, ts = t :: us ∧ t.kind = .ifWord := by
  cases h with
  | ifThen hk => exact ⟨_, _, rfl, hk⟩
  | ifElse hk => exact ⟨_, _, List.append_assoc _ _ _, hk⟩
  | elseIf hk => exact ⟨_, _, List.append_assoc _ _ _, hk⟩

/-- A statement begins with a token that statements begin with. -/
theorem statement_head {s : Statement} {ts : List Token} {d : Nat} (h : Grammar.SpellsStatement .statement s ts d) :
    ∃ t us, ts = t :: us ∧ StartsStatement t.kind := by
  cases h with
  | act hk => exact ⟨_, _, rfl, .inl hk⟩
  | call hk => exact ⟨_, _, rfl, .inl hk⟩
  | conditional h =>
    obtain ⟨t, us, rfl, hk⟩ := conditional_head h
    exact ⟨t, us, rfl, .inr (.inl hk)⟩
  | whileDo hk => exact ⟨_, _, rfl, .inr (.inr (.inl hk))⟩
  | repeatTimes hk => exact ⟨_, _, rfl, .inr (.inr (.inr hk))⟩

/-- No statement begins as an alternative does. -/
theorem StartsStatement.ne_else {k : Kind} (h : StartsStatement k) : k ≠ .elseWord := by
  rcases h with rfl | rfl | rfl | rfl <;> decide

/-- Behind a statement of a block there is another one or what ends the statements, and so no `else`. -/
theorem notAhead_else_of_body {s : Statement} {ts : List Token} {d : Nat} {next : Token} {rest : List Token}
    (h : Grammar.SpellsStatement .body s ts d) (hn : next.kind ≠ .elseWord) :
    NotAhead tail .elseWord (ts ++ next :: rest) := by
  cases h with
  | nothing => exact hn
  | andThen h _ =>
    obtain ⟨t, us, rfl, hk⟩ := statement_head h
    exact hk.ne_else

/-! ## Statements -/

/-- What is asked of a statement that is to be read with `room` levels of nesting left and `words` words counted. -/
structure Readable (room words : Nat) (s : Statement) (depth : Nat) : Prop where
  shallow : depth ≤ room
  bounded : s.Bounded
  /-- No sensor is called as a command. -/
  calls : ∀ c ∈ s.calls, Sensor.ofName? c.1 = none
  fits : words + s.size ≤ 4096

/-- What is read of tokens that spell a statement in a form. The brace behind the statements of a block is read with them. -/
def CompleteStatement (tail : Tail) : Grammar.Form → Statement → List Token → Nat → Prop
  | .statement, s, ts, d => ∀ room rest w, Readable room w s d → NotAhead tail .elseWord rest →
    Reads (statement room (block room)) (.upTo tail (ts ++ rest) w) s (.upTo tail rest (w + s.size))
  | .conditional, s, ts, d => ∀ room rest w fuel, Readable room w s d → NotAhead tail .elseWord rest →
    ts.length ≤ fuel →
    Reads (conditional room (block room) fuel) (.upTo tail (ts ++ rest) w) s (.upTo tail rest (w + s.size))
  | .body, s, ts, d => ∀ room rest w closing fuel, Readable room w s d → closing.kind = .closingBrace →
    ts.length ≤ fuel →
    Reads (statements (statement room (block room)) fuel) (.upTo tail (ts ++ closing :: rest) w) (s, closing)
      (.upTo tail rest (w + s.size))
  | .block closing, s, ts, d => ∀ room rest w, Readable room w s d →
    Reads (block room) (.upTo tail (ts ++ rest) w) (s, closing) (.upTo tail rest (w + s.size))

/-- The name of an action is not that of a sensor. -/
theorem sensor_ofName?_of_action {name : String} {a : Action} (h : Action.ofName? name = some a) :
    Sensor.ofName? name = none := by
  have hn := List.find?_some h
  rw [beq_iff_eq] at hn
  subst hn
  cases a <;> rfl

/-- The statement that is read of a call of a name. -/
def callOf (name : Token) : Statement :=
  match Action.ofName? name.text with
  | some a => .act a name.line
  | none => .call name.text name.line name.position

/-- A call can be read if its name is not that of a sensor. -/
theorem call_complete (tail : Tail) {name opening closing semicolon : Token} {w : Nat} (hw : w < 4096)
    (hname : Sensor.ofName? name.text = none) (ho : opening.kind = .openingParen)
    (hc : closing.kind = .closingParen) (hs : semicolon.kind = .semicolon) (rest : List Token) :
    Reads call (.upTo tail (name :: opening :: closing :: semicolon :: rest) w) (callOf name)
      (.upTo tail rest (w + 1)) := by
  refine reads_bind.2 ⟨name, _, reads_advance_upTo name _ w, ?_⟩
  dsimp only
  rw [hname, if_neg (by simp)]
  refine reads_bind.2 ⟨_, _, reads_emptyParens_upTo ho hc _ w, reads_bind.2 ⟨_, _, reads_expect_upTo hs rest w,
    reads_bind.2 ⟨_, _, reads_reserve_upTo tail hw rest, ?_⟩⟩⟩
  unfold callOf
  cases Action.ofName? name.text with
  | some a => exact reads_pure.2 ⟨rfl, rfl⟩
  | none => exact reads_pure.2 ⟨rfl, rfl⟩

/-- A conditional is read by its test, its block and what is read otherwise. -/
theorem conditionalThen_complete (room w : Nat) (keyword : Token) {closing : Token} {test : Condition} {body : Statement}
    {ts us rest : List Token} {d e : Nat} {further : Parser Statement} (ht : Grammar.SpellsTest test ts d)
    (hd : d ≤ room) (hn : test.need ≤ 64) (hw : w + test.size + 1 ≤ 4096)
    (hb : CompleteStatement tail (.block closing) body us e) (hbody : Readable room (w + test.size + 1) body e)
    {other : Option Statement} {r' : Reading}
    (h : Reads (alternative (block room) further) (.upTo tail rest (w + test.size + 1 + body.size)) other r') :
    Reads (conditionalThen room (block room) further) (.upTo tail (keyword :: ts ++ us ++ rest) w)
      (match other with
        | some otherwise => .ifElse test keyword.line body otherwise
        | none => .ifThen test keyword.line body) r' := by
  have h₂ := test_complete tail room w ht hd hn (Nat.le_of_succ_le hw) (us ++ rest)
  have h₄ := hb room rest _ hbody
  rw [List.cons_append, List.cons_append, List.append_assoc]
  refine reads_bind.2 ⟨_, _, reads_advance_upTo keyword _ w, reads_bind.2 ⟨_, _, h₂, reads_bind.2 ⟨_, _,
    reads_reserve_upTo tail hw (us ++ rest), reads_bind.2 ⟨_, _, h₄, reads_bind.2 ⟨_, _, h, ?_⟩⟩⟩⟩⟩
  cases other with
  | none => exact reads_pure.2 ⟨rfl, rfl⟩
  | some otherwise => exact reads_pure.2 ⟨rfl, rfl⟩

/-- Without `else` ahead nothing is read. -/
theorem alternative_none {room w : Nat} (further : Parser Statement) {rest : List Token}
    (h : NotAhead tail .elseWord rest) :
    Reads (alternative (block room) further) (.upTo tail rest w) none (.upTo tail rest w) := by
  refine reads_current_bind.2 ⟨_, next?_upTo rest w, ?_⟩
  rw [if_neg h]
  exact reads_pure.2 ⟨rfl, rfl⟩

/-- Behind `else` a block is read. -/
theorem alternative_block (room : Nat) {w : Nat} (further : Parser Statement) {elseWord final : Token} {s : Statement}
    {ts : List Token} {d : Nat} (rest : List Token) (hk : elseWord.kind = .elseWord) (h : Grammar.SpellsStatement (.block final) s ts d)
    (hc : CompleteStatement tail (.block final) s ts d) (hs : Readable room (w + 1) s d) :
    Reads (alternative (block room) further) (.upTo tail (elseWord :: ts ++ rest) w) (some s)
      (.upTo tail rest (w + 1 + s.size)) := by
  have hr := hc room rest _ hs
  have hw : w < 4096 := by have := hs.fits; omega
  refine reads_current_bind.2 ⟨elseWord, rfl, ?_⟩
  rw [if_pos hk]
  refine reads_bind.2 ⟨_, _, reads_advance_upTo elseWord _ w, reads_bind.2 ⟨_, _, reads_reserve_upTo tail hw _, ?_⟩⟩
  cases h with
  | @block opening _ _ us _ ho _ _ =>
    refine reads_current_bind.2 ⟨opening, rfl, ?_⟩
    rw [ho]
    exact reads_bind.2 ⟨_, _, hr, reads_pure.2 ⟨rfl, rfl⟩⟩

/-- Behind `else` another conditional is read. -/
theorem alternative_conditional (room : Nat) {w : Nat} {further : Parser Statement} {elseWord : Token} {s : Statement}
    {ts rest : List Token} {d : Nat} {r' : Reading} (hk : elseWord.kind = .elseWord) (hw : w < 4096)
    (h : Grammar.SpellsStatement .conditional s ts d)
    (hs : Reads further (.upTo tail (ts ++ rest) (w + 1)) s r') :
    Reads (alternative (block room) further) (.upTo tail (elseWord :: ts ++ rest) w) (some s) r' := by
  obtain ⟨t, us, rfl, ht⟩ := conditional_head h
  refine reads_current_bind.2 ⟨elseWord, rfl, ?_⟩
  rw [if_pos hk]
  refine reads_bind.2 ⟨_, _, reads_advance_upTo elseWord _ w, reads_bind.2 ⟨_, _, reads_reserve_upTo tail hw _, ?_⟩⟩
  refine reads_current_bind.2 ⟨t, rfl, ?_⟩
  rw [ht]
  exact reads_bind.2 ⟨_, _, hs, reads_pure.2 ⟨rfl, rfl⟩⟩

/-- The statements of a block are read one after the other. -/
theorem statements_step {p : Parser Statement} {fuel : Nat} {r r₁ r₂ : Reading} {t closing : Token}
    {first rest : Statement} (ht : r.next? = some t) (hk : StartsStatement t.kind) (h₁ : Reads p r first r₁)
    (h₂ : Reads (statements p fuel) r₁ (rest, closing) r₂) :
    Reads (statements p (fuel + 1)) r (.andThen first rest, closing) r₂ := by
  unfold statements
  refine reads_current_bind.2 ⟨t, ht, ?_⟩
  rcases hk with hk | hk | hk | hk <;>
  · rw [hk]
    exact reads_bind.2 ⟨_, _, h₁, reads_bind.2 ⟨_, _, h₂, reads_pure.2 ⟨rfl, rfl⟩⟩⟩

/-- Whatever the fuel, a conditional is read by its parts. -/
theorem exists_conditionalThen (room : Nat) (block : Parser Block) (fuel : Nat) :
    ∃ further, conditional room block fuel = conditionalThen room block further := by
  cases fuel with
  | zero => exact ⟨_, rfl⟩
  | succ fuel => exact ⟨_, rfl⟩

/-- A loop on a condition can be read if its block can. -/
theorem whileLoop_complete {room w : Nat} {keyword closing : Token} {test : Condition} {body : Statement}
    {ts us : List Token} {d e : Nat} (ht : Grammar.SpellsTest test ts d)
    (hb : CompleteStatement tail (.block closing) body us e)
    (h : Readable room w (.whileDo test keyword.line body) (max d e)) (rest : List Token) :
    Reads (whileLoop room (block room)) (.upTo tail (keyword :: ts ++ us ++ rest) w) (.whileDo test keyword.line body)
      (.upTo tail rest (w + (test.size + 1 + body.size + 1))) := by
  obtain ⟨hd, hbound, hcalls, hw⟩ := h
  obtain ⟨hn, hbound⟩ := Statement.Bounded.whileDo_iff.1 hbound
  simp only [Statement.size] at hw
  have h₂ := test_complete tail room w ht (by omega) hn (by omega) (us ++ rest)
  have h₃ := reads_reserve_upTo tail (w := w + test.size) (by omega) (us ++ rest)
  have h₄ := hb room rest (w + test.size + 1) ⟨by omega, hbound, hcalls, by omega⟩
  have h₅ := reads_reserve_upTo tail (w := w + test.size + 1 + body.size) (by omega) rest
  rw [List.cons_append, List.cons_append, List.append_assoc]
  exact reads_bind.2 ⟨_, _, reads_advance_upTo keyword _ w, reads_bind.2 ⟨_, _, h₂, reads_bind.2 ⟨_, _, h₃,
    reads_bind.2 ⟨_, _, h₄, reads_bind.2 ⟨_, _, h₅, reads_pure.2 ⟨rfl, by simp only [Nat.add_assoc]⟩⟩⟩⟩⟩⟩

/-- A repeat can be read if its block can. -/
theorem repeatLoop_complete {room w : Nat} {keyword opening number closing final : Token} {count : Nat}
    {body : Statement} {ts : List Token} {d : Nat} (ho : opening.kind = .openingParen) (hk : number.kind = .number)
    (hv : Text.decimal? number.text.toList = some count) (hc : closing.kind = .closingParen)
    (hb : CompleteStatement tail (.block final) body ts d)
    (h : Readable room w (.repeatTimes count keyword.line body final.line) d) (rest : List Token) :
    Reads (repeatLoop (block room)) (.upTo tail (keyword :: opening :: number :: closing :: ts ++ rest) w)
      (.repeatTimes count keyword.line body final.line) (.upTo tail rest (w + (1 + body.size + 1))) := by
  obtain ⟨hd, hbound, hcalls, hw⟩ := h
  obtain ⟨hcount, hbound⟩ := Statement.Bounded.repeatTimes_iff.1 hbound
  simp only [Statement.size] at hw
  have h₅ := reads_reserve_upTo tail (w := w) (by omega) (ts ++ rest)
  have h₆ := hb room rest (w + 1) ⟨hd, hbound, hcalls, by omega⟩
  have h₇ := reads_reserve_upTo tail (w := w + 1 + body.size) (by omega) rest
  refine reads_bind.2 ⟨_, _, reads_advance_upTo keyword _ w, reads_bind.2 ⟨_, _, reads_expect_upTo ho _ w,
    reads_bind.2 ⟨_, _, reads_expect_upTo hk _ w, ?_⟩⟩⟩
  rw [repeatCount?_eq_some.2 ⟨hv, hcount⟩]
  exact reads_bind.2 ⟨_, _, reads_expect_upTo hc _ w, reads_bind.2 ⟨_, _, h₅, reads_bind.2 ⟨_, _, h₆,
    reads_bind.2 ⟨_, _, h₇, reads_pure.2 ⟨rfl, by simp only [Nat.add_assoc]⟩⟩⟩⟩⟩

/-- A statement in front of others can be read with them if each of them can. -/
theorem andThen_complete {first rest : Statement} {ts us : List Token} {d e : Nat}
    (hs : Grammar.SpellsStatement .statement first ts d) (hb : Grammar.SpellsStatement .body rest us e)
    (ihs : CompleteStatement tail .statement first ts d) (ihb : CompleteStatement tail .body rest us e) :
    CompleteStatement tail .body (.andThen first rest) (ts ++ us) (max d e) := by
  intro room rest' w closing fuel h hc hfuel
  obtain ⟨hd, hbound, hcalls, hw⟩ := h
  obtain ⟨hb₁, hb₂⟩ := Statement.Bounded.andThen_iff.1 hbound
  obtain ⟨hc₁, hc₂⟩ := List.forall_mem_append.1 hcalls
  simp only [Statement.size] at hw
  have h₁ := ihs room (us ++ closing :: rest') w ⟨by omega, hb₁, hc₁, by omega⟩ (notAhead_else_of_body hb (by rw [hc]; decide))
  obtain ⟨t, ts, rfl, ht⟩ := statement_head hs
  cases fuel with
  | zero => simp at hfuel
  | succ fuel =>
    have h₂ := ihb room rest' (w + first.size) closing fuel ⟨by omega, hb₂, hc₂, by omega⟩ hc
      (by simp at hfuel; omega)
    rw [List.append_assoc]
    have h := statements_step rfl ht h₁ h₂
    rwa [Nat.add_assoc] at h

/-- A block can be read if what is inside can. -/
theorem block_complete {opening closing : Token} {s : Statement} {ts : List Token} {d : Nat}
    (ho : opening.kind = .openingBrace) (hc : closing.kind = .closingBrace) (ih : CompleteStatement tail .body s ts d) :
    CompleteStatement tail (.block closing) s (opening :: ts ++ [closing]) (d + 1) := by
  intro room rest w h
  obtain ⟨hd, hbound, hcalls, hw⟩ := h
  cases room with
  | zero => exact absurd hd (Nat.not_succ_le_zero _)
  | succ room =>
    rw [List.append_assoc, List.cons_append]
    refine reads_bind.2 ⟨_, _, reads_expect_upTo ho _ w, ?_⟩
    rw [reads_remaining_bind]
    exact ih room rest w closing _ ⟨Nat.le_of_succ_le_succ hd, hbound, hcalls, hw⟩ hc (by simp [Reading.upTo])

/-- A conditional without an alternative can be read if its block can. -/
theorem ifThen_complete {keyword closing : Token} {test : Condition} {body : Statement} {ts us : List Token} {d e : Nat}
    (ht : Grammar.SpellsTest test ts d) (ih : CompleteStatement tail (.block closing) body us e) :
    CompleteStatement tail .conditional (.ifThen test keyword.line body) (keyword :: ts ++ us) (max d e) := by
  intro room rest w fuel h ha _
  obtain ⟨hd, hbound, hcalls, hw⟩ := h
  obtain ⟨hn, hbound⟩ := Statement.Bounded.ifThen_iff.1 hbound
  simp only [Statement.size] at hw
  obtain ⟨further, hfurther⟩ := exists_conditionalThen room (block room) fuel
  rw [hfurther]
  have hr := conditionalThen_complete room w keyword ht (by omega) hn (by omega) ih
    ⟨by omega, hbound, hcalls, by omega⟩ (alternative_none further ha)
  simpa only [Statement.size, Nat.add_assoc] using hr

/-- A conditional with a block as its alternative can be read if both blocks can. -/
theorem ifElse_complete {keyword closing elseWord final : Token} {test : Condition} {body otherwise : Statement}
    {ts us vs : List Token} {d e f : Nat} (ht : Grammar.SpellsTest test ts d) (helse : elseWord.kind = .elseWord)
    (ho : Grammar.SpellsStatement (.block final) otherwise vs f)
    (ihb : CompleteStatement tail (.block closing) body us e) (iho : CompleteStatement tail (.block final) otherwise vs f) :
    CompleteStatement tail .conditional (.ifElse test keyword.line body otherwise) (keyword :: ts ++ us ++ elseWord :: vs)
      (max (max d e) f) := by
  intro room rest w fuel h ha _
  obtain ⟨hd, hbound, hcalls, hw⟩ := h
  obtain ⟨hn, hb₁, hb₂⟩ := Statement.Bounded.ifElse_iff.1 hbound
  obtain ⟨hc₁, hc₂⟩ := List.forall_mem_append.1 hcalls
  simp only [Statement.size] at hw
  obtain ⟨further, hfurther⟩ := exists_conditionalThen room (block room) fuel
  rw [hfurther, List.append_assoc]
  have hother := alternative_block room (w := w + test.size + 1 + body.size) further rest helse ho iho
    ⟨by omega, hb₂, hc₂, by omega⟩
  have hr := conditionalThen_complete room w keyword ht (by omega) hn (by omega) ihb
    ⟨by omega, hb₁, hc₁, by omega⟩ hother
  simpa only [Statement.size, Nat.add_assoc] using hr

/-- In a chain of conditionals each further one takes less fuel: at least its `if` and `else` come before it. -/
theorem elseIf_complete {keyword closing elseWord : Token} {test : Condition} {body otherwise : Statement}
    {ts us vs : List Token} {d e f : Nat} (ht : Grammar.SpellsTest test ts d) (helse : elseWord.kind = .elseWord)
    (ho : Grammar.SpellsStatement .conditional otherwise vs f)
    (ihb : CompleteStatement tail (.block closing) body us e) (iho : CompleteStatement tail .conditional otherwise vs f) :
    CompleteStatement tail .conditional (.ifElse test keyword.line body otherwise) (keyword :: ts ++ us ++ elseWord :: vs)
      (max (max d e) f) := by
  intro room rest w fuel h ha hfuel
  obtain ⟨hd, hbound, hcalls, hw⟩ := h
  obtain ⟨hn, hb₁, hb₂⟩ := Statement.Bounded.ifElse_iff.1 hbound
  obtain ⟨hc₁, hc₂⟩ := List.forall_mem_append.1 hcalls
  simp only [Statement.size] at hw
  cases fuel with
  | zero => simp at hfuel
  | succ fuel =>
    have hfurther := iho room rest (w + test.size + 1 + body.size + 1) fuel ⟨by omega, hb₂, hc₂, by omega⟩ ha
      (by simp at hfuel; omega)
    have hother := alternative_conditional room helse (by omega) ho hfurther
    have hr := conditionalThen_complete room w keyword ht (by omega) hn (by omega) ihb
      ⟨by omega, hb₁, hc₁, by omega⟩ hother
    rw [List.append_assoc]
    simp only [Statement.size, Nat.add_assoc] at hr ⊢
    exact hr

/-- Tokens that spell a statement are read as this statement; the induction is on the derivation. -/
theorem statement_complete (tail : Tail) {form : Grammar.Form} {s : Statement} {ts : List Token} {d : Nat}
    (h : Grammar.SpellsStatement form s ts d) : CompleteStatement tail form s ts d := by
  induction h with
  | nothing =>
    intro room rest w closing fuel _ hc _
    unfold statements
    refine reads_current_bind.2 ⟨closing, rfl, ?_⟩
    rw [hc]
    exact reads_bind.2 ⟨_, _, reads_advance_upTo closing rest w, reads_pure.2 ⟨rfl, rfl⟩⟩
  | andThen hs hb ihs ihb => exact andThen_complete hs hb ihs ihb
  | block ho _ hc ih => exact block_complete ho hc ih
  | @act name opening closing semicolon a hk ha ho hc hs =>
    intro room rest w h _
    have hcall := call_complete tail (w := w) (by have := h.fits; simp only [Statement.size] at this; omega)
      (sensor_ofName?_of_action ha) ho hc hs rest
    refine reads_current_bind.2 ⟨name, rfl, ?_⟩
    rw [hk]
    simp only [callOf, ha] at hcall
    exact hcall
  | @call name opening closing semicolon hk ha ho hc hs =>
    intro room rest w h _
    have hcall := call_complete tail (w := w) (by have := h.fits; simp only [Statement.size] at this; omega)
      (h.calls _ List.mem_cons_self) ho hc hs rest
    refine reads_current_bind.2 ⟨name, rfl, ?_⟩
    rw [hk]
    simp only [callOf, ha] at hcall
    exact hcall
  | conditional hs ih =>
    intro room rest w h ha
    have hr := fun fuel => ih room rest w fuel h ha
    obtain ⟨t, us, rfl, hk⟩ := conditional_head hs
    refine reads_current_bind.2 ⟨t, rfl, ?_⟩
    rw [hk]
    exact hr _ (by simp [Reading.upTo])
  | ifThen hk ht hb ih => exact ifThen_complete ht ih
  | ifElse hk ht hb helse ho ihb iho => exact ifElse_complete ht helse ho ihb iho
  | elseIf hk ht hb helse ho ihb iho => exact elseIf_complete ht helse ho ihb iho
  | @whileDo keyword closing test body ts us d e hk ht hb ih =>
    intro room rest w h _
    refine reads_current_bind.2 ⟨keyword, rfl, ?_⟩
    rw [hk]
    exact whileLoop_complete ht ih h rest
  | @repeatTimes keyword opening number closing final count body ts d hk ho hnum hv hc hb ih =>
    intro room rest w h _
    refine reads_current_bind.2 ⟨keyword, rfl, ?_⟩
    rw [hk]
    exact repeatLoop_complete ho hnum hv hc ih h rest

/-! ## Commands -/

/-- A declaration can be read if its body can, and its name is free. -/
theorem declaration_complete (tail : Tail) {declared : List Declaration} {d : Declaration} {ts : List Token} {e w : Nat}
    (h : Grammar.SpellsDeclaration d ts e) (hs : Readable nestingLimit (w + 1) d.body e)
    (hfresh : Action.ofName? d.name = none ∧ Sensor.ofName? d.name = none) (hnew : d.name ∉ declared.map (·.name))
    (rest : List Token) :
    Reads (declaration declared) (.upTo tail (ts ++ rest) w) d (.upTo tail rest (w + d.size)) := by
  cases h with
  | @void voidWord name opening closing final body ts e hv hn ho hc hb =>
    obtain ⟨hd, hbound, hcalls, hw⟩ := hs
    dsimp only at hw
    have h₄ := statement_complete tail hb nestingLimit rest w ⟨hd, hbound, hcalls, by omega⟩
    have h₅ := reads_reserve_upTo tail (w := w + body.size) (by omega) rest
    have hany : declared.any (fun d => d.name == name.text) = false := by
      rw [List.any_eq_false]
      intro d hd he
      exact hnew (List.mem_map.2 ⟨d, hd, beq_iff_eq.1 he⟩)
    refine reads_bind.2 ⟨_, _, reads_advance_upTo voidWord _ w, reads_bind.2 ⟨_, _, reads_expect_upTo hn _ w, ?_⟩⟩
    dsimp only
    rw [isBuiltin_eq_false.2 hfresh, if_neg (by simp)]
    refine reads_bind.2 ⟨_, _, reads_emptyParens_upTo ho hc _ w, ?_⟩
    rw [hany, if_neg (by simp)]
    exact reads_bind.2 ⟨_, _, h₄, reads_bind.2 ⟨_, _, h₅, reads_pure.2 ⟨rfl, rfl⟩⟩⟩

/-- Declarations are read up to the end of the text; the induction is on the derivation. -/
theorem declarations_complete {ds : List Declaration} {ts : List Token} {depth : Nat} (hend : tail.head.kind = .endOfInput)
    (h : Grammar.SpellsProgram ds ts depth) (hdepth : depth ≤ 256) (declared : List Declaration)
    (hdistinct : ((declared ++ ds).map (·.name)).Nodup) (hbound : ∀ d ∈ ds, d.body.Bounded)
    (hcalls : ∀ d ∈ ds, ∀ c ∈ d.body.calls, Sensor.ofName? c.1 = none)
    (hfresh : ∀ d ∈ ds, Action.ofName? d.name = none ∧ Sensor.ofName? d.name = none) {w : Nat}
    (hw : w + Declaration.sizeAll ds ≤ 4096) (fuel : Nat) (hfuel : ts.length ≤ fuel) :
    ∃ r', Reads (declarations fuel declared) (.upTo tail ts w) (declared ++ ds) r' := by
  induction h generalizing declared w fuel with
  | nil =>
    refine ⟨.upTo tail [] w, ?_⟩
    unfold declarations
    refine reads_current_bind.2 ⟨tail.head, next?_upTo [] w, ?_⟩
    rw [hend]
    exact reads_pure.2 ⟨List.append_nil _, rfl⟩
  | @cons first rest ts us d e hd hds ih =>
    obtain ⟨hb₁, hb₂⟩ := List.forall_mem_cons.1 hbound
    obtain ⟨hc₁, hc₂⟩ := List.forall_mem_cons.1 hcalls
    obtain ⟨hf₁, hf₂⟩ := List.forall_mem_cons.1 hfresh
    simp only [Declaration.sizeAll] at hw
    have hnew : first.name ∉ declared.map (·.name) := by
      rw [List.map_append, List.map_cons, List.nodup_append] at hdistinct
      intro hmem
      exact hdistinct.2.2 _ hmem _ List.mem_cons_self rfl
    have hsize : w + 1 + first.body.size ≤ 4096 := by
      simp only [Declaration.size] at hw
      omega
    have hroom : d ≤ nestingLimit := Nat.le_trans (Nat.le_max_left d e) hdepth
    have h₁ := declaration_complete tail hd ⟨hroom, hb₁, hc₁, hsize⟩ hf₁ hnew us
    have hdistinct' : (((declared ++ [first]) ++ rest).map (·.name)).Nodup := by
      rwa [List.append_assoc, List.singleton_append]
    cases hd with
    | @void voidWord name opening closing final body ts d hv =>
      cases fuel with
      | zero => simp at hfuel
      | succ fuel =>
        obtain ⟨r', h₂⟩ := ih (by omega) _ hdistinct' hb₂ hc₂ hf₂ (w := w + Declaration.size ⟨name.text, body, final.line⟩)
          (by omega) fuel (by simp at hfuel; omega)
        refine ⟨r', ?_⟩
        unfold declarations
        refine reads_current_bind.2 ⟨voidWord, rfl, ?_⟩
        rw [hv]
        rw [List.append_assoc, List.singleton_append] at h₂
        exact reads_bind.2 ⟨_, _, h₁, h₂⟩

end Parser

/-- A text is read as any declarations that its tokens spell, within the bounds. -/
theorem parse_complete {source : String} {ds : List Declaration} {ts : List Token} {eof : Token} {lexicon : Lexicon}
    {depth : Nat} (hlex : lex source = .ok (ts ++ [eof], lexicon)) (hs : Grammar.SpellsProgram ds ts depth)
    (hb : Grammar.InBounds ds depth) (hcalls : ∀ d ∈ ds, ∀ c ∈ d.body.calls, Sensor.ofName? c.1 = none) :
    parse source = .ok ds := by
  obtain ⟨rfl, hend, -⟩ := lex_eq_ok_iff.1 hlex
  have hstart : Reading.ofText source = .upTo (.ofEnd eof) (Scan.of source).tokens Parser.headerSize := by
    rw [Reading.ofText, hend, Reading.upTo, Tail.ofEnd, List.append_nil]
  rw [parse_eq_ok_iff, hstart]
  have heof : (Tail.ofEnd eof).head.kind = .endOfInput := Scan.kind_of_ending_read hend
  exact Parser.declarations_complete heof hs hb.shallow [] hb.distinct hb.bounded hcalls hb.fresh
    hb.fits _ (by rw [← hstart]; exact Nat.le_refl _)

end GridRobot
