import Mathlib.Data.List.Forall2
import GridRobot.Proofs.Diagnostic.Wording
import GridRobot.Proofs.Language.Reading

/-!
# Reading the same tokens in other places

Two readings are alike if their tokens are of the same kinds and spellings; what is between the tokens, and with it their positions
and lines, may differ. A parser makes the same of both, up to lines and positions, or refuses both for the same reason, at tokens
that correspond to each other, or at the same lexical error behind them (`declarations_agrees`).

A `Likeness` says which positions correspond to each other, and what is so of the spellings of tokens. Nothing is asked of it, so a
parser cannot but take a position, and what it quotes, from a token. What one parser keeps, `Agrees.bind` carries on to parsers in a
row.
-/

namespace GridRobot

/-! ## What is alike -/

/-- What is so of the tokens of two readings: which positions correspond to each other, and what each spelling is like. -/
structure Likeness where
  position : Nat → Nat → Prop
  spelling : String → Prop

section Alike

variable (Q : Likeness)

/-- Tokens of one kind and one spelling at corresponding positions. -/
structure Token.Alike (t t' : Token) : Prop where
  kind : t.kind = t'.kind
  text : t.text = t'.text
  position : Q.position t.position t'.position
  spelling : Q.spelling t'.text

/-- Ends of texts at corresponding positions, or the same lexical error there. -/
inductive Ending.Alike : Ending → Ending → Prop where
  | endOfInput {eof eof' : Token} : eof.Alike Q eof' → Alike (.endOfInput eof) (.endOfInput eof')
  | error (problem : Problem) {position position' : Nat} : problem.QuotesOnly Q.spelling → Q.position position position' →
      Alike (.error ⟨problem, position⟩) (.error ⟨problem, position'⟩)

/-- Readings with tokens that are alike one by one, and that end alike. -/
structure Reading.Alike (r r' : Reading) : Prop where
  tokens : List.Forall₂ (Token.Alike Q) r.tokens r'.tokens
  ending : r.ending.Alike Q r'.ending
  words : r.words = r'.words

/-- Conditions that differ in lines only. -/
inductive Condition.Alike : Condition → Condition → Prop where
  | sense (s : Sensor) (line line' : Nat) : Alike (.sense s line) (.sense s line')
  | not {c c' : Condition} (line line' : Nat) : Alike c c' → Alike (.not c line) (.not c' line')
  | and {l l' r r' : Condition} (line line' : Nat) : Alike l l' → Alike r r' → Alike (.and l r line) (.and l' r' line')
  | or {l l' r r' : Condition} (line line' : Nat) : Alike l l' → Alike r r' → Alike (.or l r line) (.or l' r' line')

/-- Statements that differ in lines only, and in the positions of calls, which correspond to each other and are spelled like tokens. -/
inductive Statement.Alike : Statement → Statement → Prop where
  | nothing : Alike .nothing .nothing
  | andThen {s s' t t' : Statement} : Alike s s' → Alike t t' → Alike (.andThen s t) (.andThen s' t')
  | act (a : Action) (line line' : Nat) : Alike (.act a line) (.act a line')
  | call (name : String) (line line' : Nat) {position position' : Nat} : Q.spelling name → Q.position position position' →
      Alike (.call name line position) (.call name line' position')
  | ifThen {c c' : Condition} {s s' : Statement} (line line' : Nat) : c.Alike c' → Alike s s' →
      Alike (.ifThen c line s) (.ifThen c' line' s')
  | ifElse {c c' : Condition} {s s' t t' : Statement} (line line' : Nat) : c.Alike c' → Alike s s' → Alike t t' →
      Alike (.ifElse c line s t) (.ifElse c' line' s' t')
  | whileDo {c c' : Condition} {s s' : Statement} (line line' : Nat) : c.Alike c' → Alike s s' →
      Alike (.whileDo c line s) (.whileDo c' line' s')
  | repeatTimes (count line line' : Nat) {s s' : Statement} (closing closing' : Nat) : Alike s s' →
      Alike (.repeatTimes count line s closing) (.repeatTimes count line' s' closing')

/-- Declarations of one name with bodies that are alike. -/
structure Declaration.Alike (d d' : Declaration) : Prop where
  name : d.name = d'.name
  body : d.body.Alike Q d'.body

/-- Two results that correspond: related values, or the same problem at corresponding positions, which quotes spellings of tokens. -/
inductive Corresponds {α β : Type} (V : α → β → Prop) : Except SourceError α → Except SourceError β → Prop where
  | ok {a : α} {b : β} : V a b → Corresponds V (.ok a) (.ok b)
  | error (problem : Problem) {position position' : Nat} : problem.QuotesOnly Q.spelling → Q.position position position' →
      Corresponds V (.error ⟨problem, position⟩) (.error ⟨problem, position'⟩)

end Alike

variable {Q : Likeness} {α α' β β' : Type} {V : α → α' → Prop} {W : β → β' → Prop}

/-- Results of steps correspond if those of the first steps do, and those of the second ones for related values. -/
theorem Corresponds.bind {x : Except SourceError α} {x' : Except SourceError α'} {f : α → Except SourceError β}
    {f' : α' → Except SourceError β'} (h : Corresponds Q V x x') (hf : ∀ a a', V a a' → Corresponds Q W (f a) (f' a')) :
    Corresponds Q W (x >>= f) (x' >>= f') := by
  cases h with
  | ok hv => exact hf _ _ hv
  | error problem hquotes hq => exact .error problem hquotes hq

/-- Corresponding results stay so under functions that keep the relation of their values. -/
theorem Corresponds.map {x : Except SourceError α} {x' : Except SourceError α'} {f : α → β} {f' : α' → β'}
    (h : Corresponds Q V x x') (hf : ∀ a a', V a a' → W (f a) (f' a')) : Corresponds Q W (f <$> x) (f' <$> x') := by
  cases h with
  | ok hv => exact .ok (hf _ _ hv)
  | error problem hquotes hq => exact .error problem hquotes hq

namespace Parser

/-- Two parsers make corresponding results of readings that are alike, and leave readings that are alike. -/
def Agrees (Q : Likeness) (V : α → α' → Prop) (p : Parser α) (p' : Parser α') : Prop :=
  ∀ r r', r.Alike Q r' → Corresponds Q (fun x x' => V x.1 x'.1 ∧ x.2.Alike Q x'.2) (p r) (p' r')

namespace Agrees

/-- Related values are given without reading. -/
theorem pure {a : α} {a' : α'} (h : V a a') : Agrees Q V (pure a) (pure a') :=
  fun _ _ hr => .ok ⟨h, hr⟩

/-- Two parsers in a row. -/
theorem bind {p : Parser α} {p' : Parser α'} {f : α → Parser β} {f' : α' → Parser β'} (h : Agrees Q V p p')
    (hf : ∀ a a', V a a' → Agrees Q W (f a) (f' a')) : Agrees Q W (p >>= f) (p' >>= f') :=
  fun r r' hr => (h r r' hr).bind fun x x' hx => hf x.1 x'.1 hx.1 x.2 x'.2 hx.2

/-- The same problem is reported at corresponding positions. -/
theorem throw {position position' : Nat} (problem : Problem) (hquotes : problem.QuotesOnly Q.spelling)
    (h : Q.position position position') : Agrees Q V (throw ⟨problem, position⟩) (throw ⟨problem, position'⟩) :=
  fun _ _ _ => .error problem hquotes h

/-- Behind a refusal nothing is read. -/
theorem stop {p : Parser α} {p' : Parser α'} {f : α → Parser β} {f' : α' → Parser β'}
    (h : Agrees Q (fun _ _ => False) p p') : Agrees Q W (p >>= f) (p' >>= f') :=
  h.bind fun _ _ hfalse => hfalse.elim

end Agrees

/-! ## Single tokens -/

/-- The tokens ahead are alike. -/
theorem current_agrees : Agrees Q (Token.Alike Q) current current := by
  rintro ⟨tokens, ending, words⟩ ⟨tokens', ending', words'⟩ ⟨htokens, hending, rfl⟩
  cases htokens with
  | nil =>
    cases hending with
    | endOfInput heof => exact .ok ⟨heof, .nil, .endOfInput heof, rfl⟩
    | error problem hquotes hq => exact .error problem hquotes hq
  | cons ht hrest => exact .ok ⟨ht, .cons ht hrest, hending, rfl⟩

/-- What is refused is refused at the token ahead, and nothing is quoted then. -/
theorem refuse_agrees (problem : Problem) (hquotes : problem.quotes = []) : Agrees Q V (refuse problem) (refuse problem) := by
  refine current_agrees.bind ?_
  intro t t' ht
  exact .throw problem (.nothing hquotes) ht.position

/-- Alike tokens are taken. -/
theorem advance_agrees : Agrees Q (Token.Alike Q) advance advance := by
  have hmodify : Agrees Q (fun _ _ : PUnit => True)
      (modify fun reading : Reading => { reading with tokens := reading.tokens.tail })
      (modify fun reading : Reading => { reading with tokens := reading.tokens.tail }) := by
    rintro ⟨tokens, ending, words⟩ ⟨tokens', ending', words'⟩ ⟨htokens, hending, hwords⟩
    cases htokens with
    | nil => exact .ok ⟨trivial, .nil, hending, hwords⟩
    | cons _ hrest => exact .ok ⟨trivial, hrest, hending, hwords⟩
  refine current_agrees.bind ?_
  intro t t' ht
  refine hmodify.bind ?_
  intro _ _ _
  refine current_agrees.bind ?_
  intro _ _ _
  exact .pure ht

/-- Alike tokens are taken if they are of a kind, and are refused alike if they are not. -/
theorem expect_agrees (kind : Kind) : Agrees Q (Token.Alike Q) (expect kind) (expect kind) := by
  refine current_agrees.bind ?_
  intro t t' ht
  rw [ht.kind]
  split
  · exact advance_agrees
  · exact refuse_agrees _ rfl

theorem emptyParens_agrees : Agrees Q (fun _ _ => True) emptyParens emptyParens := by
  refine (expect_agrees _).bind ?_
  intro _ _ _
  refine (expect_agrees _).bind ?_
  intro _ _ _
  exact .pure trivial

/-- Memory runs out at corresponding positions, as the words are counted alike. -/
theorem reserve_agrees : Agrees Q (fun _ _ => True) reserve reserve := by
  have hget : Agrees Q (Reading.Alike Q) get get := fun _ _ hr => .ok ⟨hr, hr⟩
  refine hget.bind ?_
  intro r r' hr
  rw [hr.words]
  split
  · exact fun _ _ _ => .ok ⟨trivial, hr.tokens, hr.ending, rfl⟩
  · exact refuse_agrees _ rfl

/-- There are as many tokens ahead. -/
theorem remaining_agrees : Agrees Q Eq remaining remaining :=
  fun _ _ hr => .ok ⟨hr.tokens.length_eq, hr⟩

/-! ## Conditions -/

section Conditions

variable {sign : Kind} {join : Condition → Condition → Nat → Condition}

/-- What joins conditions that are alike into such, whatever lines it is given. -/
def Joins (join : Condition → Condition → Nat → Condition) : Prop :=
  ∀ l l' r r' line line', l.Alike l' → r.Alike r' → (join l r line).Alike (join l' r' line')

/-- The induction is on the fuel, which is the number of tokens ahead and therefore the same. -/
theorem chainFrom_agrees {operand : Parser Condition} (hjoin : Joins join) (hop : Agrees Q Condition.Alike operand operand)
    {fuel : Nat} {left left' : Condition} (hleft : left.Alike left') :
    Agrees Q Condition.Alike (chainFrom sign operand join fuel left) (chainFrom sign operand join fuel left') := by
  induction fuel generalizing left left' with
  | zero => exact .pure hleft
  | succ fuel ih =>
    refine current_agrees.bind ?_
    intro t t' ht
    rw [ht.kind]
    split
    · refine advance_agrees.bind ?_
      intro operator operator' _
      refine hop.bind ?_
      intro right right' hright
      refine reserve_agrees.bind ?_
      intro _ _ _
      exact ih (hjoin left left' right right' operator.line operator'.line hleft hright)
    · exact .pure hleft

/-- Operands with signs between them are read alike if each operand is. -/
theorem chain_agrees {operand : Nat → Parser Condition} (hjoin : Joins join)
    (hop : ∀ pending, Agrees Q Condition.Alike (operand pending) (operand pending)) (pending : Nat) :
    Agrees Q Condition.Alike (chain sign operand join pending) (chain sign operand join pending) := by
  refine (hop pending).bind ?_
  intro first first' hfirst
  refine remaining_agrees.bind ?_
  rintro fuel _ rfl
  exact chainFrom_agrees hjoin (hop (pending + 1)) hfirst

/-- Disjunctions are read alike if their parts are. -/
theorem disjunction_agrees {part : Nat → Parser Condition}
    (hpart : ∀ pending, Agrees Q Condition.Alike (part pending) (part pending)) (pending : Nat) :
    Agrees Q Condition.Alike (disjunction part pending) (disjunction part pending) := by
  have hand : Joins .and := fun _ _ _ _ line line' hl hr => .and line line' hl hr
  have hor : Joins .or := fun _ _ _ _ line line' hl hr => .or line line' hl hr
  exact chain_agrees hor (chain_agrees hand hpart) pending

/-- Calls of sensors are read alike, as their names are spelled alike. -/
theorem sensor_agrees (pending : Nat) : Agrees Q Condition.Alike (sensor pending) (sensor pending) := by
  refine current_agrees.bind ?_
  intro t t' ht
  rw [ht.text]
  split
  · exact refuse_agrees _ rfl
  · rename_i s _
    split
    · refine advance_agrees.bind ?_
      intro _ _ _
      refine emptyParens_agrees.bind ?_
      intro _ _ _
      refine reserve_agrees.bind ?_
      intro _ _ _
      exact .pure (.sense s t.line t'.line)
    · exact refuse_agrees _ rfl

/-- The induction is on the nesting that is left. -/
theorem part_agrees (room pending : Nat) : Agrees Q Condition.Alike (part room pending) (part room pending) := by
  induction room using Nat.strongRecOn generalizing pending with
  | _ room ih =>
  unfold part
  refine current_agrees.bind ?_
  intro t t' ht
  rw [ht.kind]
  split
  · exact sensor_agrees pending
  · refine advance_agrees.bind ?_
    intro _ _ _
    cases room with
    | zero => exact refuse_agrees _ rfl
    | succ room =>
      refine (ih room (Nat.lt_succ_self _) pending).bind ?_
      intro c c' hc
      refine reserve_agrees.bind ?_
      intro _ _ _
      exact .pure (.not t.line t'.line hc)
  · refine advance_agrees.bind ?_
    intro _ _ _
    cases room with
    | zero => exact refuse_agrees _ rfl
    | succ room =>
      refine (disjunction_agrees (ih room (Nat.lt_succ_self _)) pending).bind ?_
      intro c c' hc
      refine (expect_agrees _).bind ?_
      intro _ _ _
      exact .pure hc
  · exact refuse_agrees _ rfl

/-- Tests are read alike. -/
theorem test_agrees (room : Nat) : Agrees Q Condition.Alike (test room) (test room) := by
  refine (expect_agrees _).bind ?_
  intro _ _ _
  refine (disjunction_agrees (part_agrees room) 0).bind ?_
  intro c c' hc
  refine (expect_agrees _).bind ?_
  intro _ _ _
  exact .pure hc

end Conditions

/-! ## Statements -/

section Statements

/-- Blocks that are alike, whatever their closing braces. -/
def AlikeBlocks (Q : Likeness) (b b' : Block) : Prop := b.1.Alike Q b'.1

variable {room : Nat} {block : Parser Block} {further : Parser Statement}

/-- Calls are read alike: of a name that is called, the spelling is the same and the positions correspond. -/
theorem call_agrees : Agrees Q (Statement.Alike Q) call call := by
  refine advance_agrees.bind ?_
  intro name name' hname
  rw [hname.text]
  dsimp only
  split
  · exact .stop (.throw _ (.nothing rfl) hname.position)
  · refine emptyParens_agrees.bind ?_
    intro _ _ _
    refine (expect_agrees _).bind ?_
    intro _ _ _
    refine reserve_agrees.bind ?_
    intro _ _ _
    split
    · rename_i a _
      exact .pure (.act a name.line name'.line)
    · exact .pure (.call name'.text name.line name'.line hname.spelling hname.position)

variable (hblock : Agrees Q (AlikeBlocks Q) block block)
include hblock

/-- Alternatives are read alike, where there is one. -/
theorem alternative_agrees (hfurther : Agrees Q (Statement.Alike Q) further further) :
    Agrees Q (Option.Rel (Statement.Alike Q)) (alternative block further) (alternative block further) := by
  refine current_agrees.bind ?_
  intro t t' ht
  rw [ht.kind]
  split
  · refine advance_agrees.bind ?_
    intro _ _ _
    refine reserve_agrees.bind ?_
    intro _ _ _
    refine current_agrees.bind ?_
    intro u u' hu
    rw [hu.kind]
    split
    · refine hblock.bind ?_
      intro b b' hb
      exact .pure (.some hb)
    · refine hfurther.bind ?_
      intro s s' hs
      exact .pure (.some hs)
    · exact refuse_agrees _ rfl
  · exact .pure .none

/-- A keyword, a test and a block are read alike one behind the other, with what is made of them. -/
theorem guarded_agrees {f : Token → Condition → Block → Parser β} {f' : Token → Condition → Block → Parser β'}
    (hf : ∀ keyword keyword' c c' b b', c.Alike c' → AlikeBlocks Q b b' → Agrees Q W (f keyword c b) (f' keyword' c' b')) :
    Agrees Q W (advance >>= fun keyword => test room >>= fun c => reserve >>= fun _ => block >>= f keyword c)
      (advance >>= fun keyword => test room >>= fun c => reserve >>= fun _ => block >>= f' keyword c) := by
  refine advance_agrees.bind ?_
  intro keyword keyword' _
  refine (test_agrees room).bind ?_
  intro c c' hc
  refine reserve_agrees.bind ?_
  intro _ _ _
  refine hblock.bind ?_
  intro b b' hb
  exact hf keyword keyword' c c' b b' hc hb

/-- Conditionals are read alike if their blocks and alternatives are. -/
theorem conditionalThen_agrees (hfurther : Agrees Q (Statement.Alike Q) further further) :
    Agrees Q (Statement.Alike Q) (conditionalThen room block further) (conditionalThen room block further) := by
  refine guarded_agrees hblock ?_
  intro keyword keyword' c c' b b' hc hb
  refine (alternative_agrees hblock hfurther).bind ?_
  intro other other' hother
  cases hother with
  | none => exact .pure (.ifThen keyword.line keyword'.line hc hb)
  | some hs => exact .pure (.ifElse keyword.line keyword'.line hc hb hs)

/-- The induction is on the fuel, which is one less for each further test. -/
theorem conditional_agrees {fuel : Nat} :
    Agrees Q (Statement.Alike Q) (conditional room block fuel) (conditional room block fuel) := by
  induction fuel with
  | zero => exact conditionalThen_agrees hblock (refuse_agrees _ rfl)
  | succ fuel ih => exact conditionalThen_agrees hblock ih

/-- Loops on a condition are read alike if their blocks are. -/
theorem whileLoop_agrees : Agrees Q (Statement.Alike Q) (whileLoop room block) (whileLoop room block) := by
  refine guarded_agrees hblock ?_
  intro keyword keyword' c c' b b' hc hb
  refine reserve_agrees.bind ?_
  intro _ _ _
  exact .pure (.whileDo keyword.line keyword'.line hc hb)

/-- Repeats are read alike if their blocks are; the numerals of their counts are spelled alike. -/
theorem repeatLoop_agrees : Agrees Q (Statement.Alike Q) (repeatLoop block) (repeatLoop block) := by
  refine advance_agrees.bind ?_
  intro keyword keyword' _
  refine (expect_agrees _).bind ?_
  intro _ _ _
  refine (expect_agrees _).bind ?_
  intro number number' hnumber
  rw [hnumber.text]
  split
  · exact .throw _ (.one rfl hnumber.spelling) hnumber.position
  · rename_i count _
    refine (expect_agrees _).bind ?_
    intro _ _ _
    refine reserve_agrees.bind ?_
    intro _ _ _
    refine hblock.bind ?_
    intro b b' hb
    refine reserve_agrees.bind ?_
    intro _ _ _
    exact .pure (.repeatTimes count keyword.line keyword'.line b.2.line b'.2.line hb)

/-- Statements are read alike if blocks are. -/
theorem statement_agrees : Agrees Q (Statement.Alike Q) (statement room block) (statement room block) := by
  refine current_agrees.bind ?_
  intro t t' ht
  rw [ht.kind]
  split
  · exact call_agrees
  · refine remaining_agrees.bind ?_
    rintro fuel _ rfl
    exact conditional_agrees hblock
  · exact whileLoop_agrees hblock
  · exact repeatLoop_agrees hblock
  · exact refuse_agrees _ rfl

end Statements

/-- The induction is on the fuel, which is the number of tokens ahead and therefore the same. -/
theorem statements_agrees {statement : Parser Statement} (h : Agrees Q (Statement.Alike Q) statement statement)
    {fuel : Nat} : Agrees Q (AlikeBlocks Q) (statements statement fuel) (statements statement fuel) := by
  induction fuel using Nat.strongRecOn with
  | _ fuel ih =>
  unfold statements
  refine current_agrees.bind ?_
  intro t t' ht
  rw [ht.kind]
  split
  · refine advance_agrees.bind ?_
    intro _ _ _
    exact .pure .nothing
  · exact refuse_agrees _ rfl
  · exact refuse_agrees _ rfl
  · cases fuel with
    | zero => exact refuse_agrees _ rfl
    | succ fuel =>
      refine h.bind ?_
      intro s s' hs
      refine (ih fuel (Nat.lt_succ_self _)).bind ?_
      intro b b' hb
      exact .pure (.andThen hs hb)

/-- The induction is on the nesting that is left. -/
theorem block_agrees (room : Nat) : Agrees Q (AlikeBlocks Q) (block room) (block room) := by
  induction room with
  | zero =>
    refine (expect_agrees _).bind ?_
    intro _ _ _
    exact refuse_agrees _ rfl
  | succ room ih =>
    refine (expect_agrees _).bind ?_
    intro _ _ _
    refine remaining_agrees.bind ?_
    rintro fuel _ rfl
    exact statements_agrees (statement_agrees ih)

/-! ## Commands -/

/-- Whether a name has been declared is the same among declarations that are alike. -/
theorem any_name_eq {ds ds' : List Declaration} (h : List.Forall₂ (Declaration.Alike Q) ds ds') (name : String) :
    ds.any (fun d => d.name == name) = ds'.any (fun d => d.name == name) := by
  induction h with
  | nil => rfl
  | cons hd _ ih => rw [List.any_cons, List.any_cons, hd.name, ih]

/-- Declarations are read alike behind others that are alike. -/
theorem declaration_agrees {ds ds' : List Declaration} (h : List.Forall₂ (Declaration.Alike Q) ds ds') :
    Agrees Q (Declaration.Alike Q) (declaration ds) (declaration ds') := by
  refine advance_agrees.bind ?_
  intro _ _ _
  refine (expect_agrees _).bind ?_
  intro name name' hname
  rw [hname.text]
  dsimp only
  split
  · exact .stop (.throw _ (.one rfl hname.spelling) hname.position)
  · refine emptyParens_agrees.bind ?_
    intro _ _ _
    rw [any_name_eq h]
    split
    · exact .stop (.throw _ (.one rfl hname.spelling) hname.position)
    · refine (block_agrees _).bind ?_
      intro b b' hb
      refine reserve_agrees.bind ?_
      intro _ _ _
      exact .pure ⟨rfl, hb⟩

/-- Declarations are read alike, behind others that are alike. The induction is on the fuel. -/
theorem declarations_agrees (fuel : Nat) {ds ds' : List Declaration} (h : List.Forall₂ (Declaration.Alike Q) ds ds') :
    Agrees Q (List.Forall₂ (Declaration.Alike Q)) (declarations fuel ds) (declarations fuel ds') := by
  induction fuel using Nat.strongRecOn generalizing ds ds' with
  | _ fuel ih =>
  unfold declarations
  refine current_agrees.bind ?_
  intro t t' ht
  rw [ht.kind]
  split
  · exact .pure h
  · cases fuel with
    | zero => exact refuse_agrees _ rfl
    | succ fuel =>
      refine (declaration_agrees h).bind ?_
      intro d d' hd
      exact ih fuel (Nat.lt_succ_self _) (List.rel_append h (.cons hd .nil))
  · exact refuse_agrees _ rfl
  · exact refuse_agrees _ rfl

end Parser

end GridRobot
