import Mathlib.Data.List.Induction
import GridRobot.Program.Linkage
import GridRobot.Proofs.Machine.Coding
import GridRobot.Proofs.Program.Memory

/-!
# Patching recorded calls

A linkage is told one thing after the other: that a symbol is declared, or that a word refers to one. Of these entries the first
declaration of a symbol and the last reference at an address count. Linking patches the words that are referred to in the order of
their addresses, each in its target only, and stops at the first whose symbol is not declared (`link_patches_recorded`).
-/

namespace GridRobot

/-! ## Changing a target -/

namespace Instruction

/-- Another target leaves the category, and of the target the low twelve bits count. -/
theorem parts_withTarget (i : Instruction) (target : Nat) :
    (i.withTarget target).category = i.category ∧ (i.withTarget target).target = target % Opcode.operands := by
  have hcode : i.word.toNat / Opcode.operands < 16 := Nat.div_lt_of_lt_mul i.word.toNat_lt
  have hlow : target % Opcode.operands < Opcode.operands := Nat.mod_lt _ (by decide)
  obtain ⟨hcategory, htarget⟩ := Opcode.toNat_category_add hcode hlow
  exact ⟨congrArg (· * Opcode.operands) hcategory, htarget⟩

end Instruction

namespace Program

/-- Patching is at one address. -/
theorem get?_patch (p : Program) (a target b : Nat) :
    (p.patch a target).get? b = if b = a then (p.get? b).map (·.withTarget target) else p.get? b := by
  unfold patch
  cases hget : p.get? a with
  | none =>
    dsimp only
    split
    · rename_i hb
      rw [hb, hget]
      rfl
    · rfl
  | some i =>
    have ha : a < memorySize := (Vector.getElem?_eq_some_iff.1 hget).1
    dsimp only
    rw [get?_replace ha]
    split
    · rename_i hb
      rw [hb, hget]
      rfl
    · rfl

/-- Of instructions that were put behind each other, the target of any one may be changed. -/
theorem pushAll_patch {p : Program} (before : List Instruction) {after : List Instruction} {i : Instruction}
    (h : empty.pushAll (before ++ i :: after) = .ok p) (target : Nat) :
    empty.pushAll (before ++ i.withTarget target :: after) = .ok (p.patch before.length target) := by
  have hget : p.get? before.length = some i := by
    refine get?_eq_of_instructions ?_
    rw [(pushAll_eq_ok h).2.1, instructions_empty, List.nil_append, List.getElem?_append_right (Nat.le_refl _), Nat.sub_self]
    rfl
  have hexchange := pushAll_exchange before h (i.withTarget target)
  rw [show empty.size = 0 from rfl, Nat.zero_add] at hexchange
  rw [hexchange, patch, hget]

/-- Two programs are alike but for the words in memory. -/
structure SameOutline (p q : Program) : Prop where
  size_eq : q.size = p.size
  entry_eq : q.entry = p.entry
  commands_eq : q.commands = p.commands

theorem SameOutline.refl (p : Program) : p.SameOutline p := ⟨rfl, rfl, rfl⟩

/-- Patching changes words in memory only. -/
theorem SameOutline.of_patch {p q : Program} {a target : Nat} (h : (p.patch a target).SameOutline q) : p.SameOutline q := by
  unfold patch at h
  split at h
  · exact ⟨h.size_eq, h.entry_eq, h.commands_eq⟩
  · exact h

end Program

namespace Linkage

/-! ## Entries -/

/-- What a linkage is told: that a symbol is declared at an address, or that a word refers to a symbol. -/
inductive Entry where
  | declaration (symbol address : Nat)
  | reference (r : Reference)
  deriving DecidableEq, Repr

/-- The linkage behind one more entry. A declaration that is refused changes nothing. -/
def enter (l : Linkage) : Entry → Linkage
  | .declaration symbol address => (l.declare symbol address).getD l
  | .reference r => l.record r.address r.position r.symbol

/-- The linkage that is told entries one after the other. -/
def ofEntries (es : List Entry) : Linkage := es.foldl enter empty

/-- The address that the first declaration of a symbol gives. -/
def addressIn? (es : List Entry) (symbol : Nat) : Option Nat :=
  es.findSome? fun
    | .declaration s address => if s = symbol then some address else none
    | .reference _ => none

/-- The last reference at an address. -/
def referenceIn? (es : List Entry) (address : Nat) : Option Reference :=
  es.reverse.findSome? fun
    | .declaration _ _ => none
    | .reference r => if r.address = address then some r else none

/-- A further declaration counts if there is none in front. -/
theorem addressIn?_declaration (es : List Entry) (symbol address s : Nat) :
    addressIn? (es ++ [.declaration symbol address]) s =
      (addressIn? es s).or (if symbol = s then some address else none) := by
  rw [addressIn?, List.findSome?_append, List.findSome?_singleton]
  rfl

/-- A reference declares nothing. -/
theorem addressIn?_reference (es : List Entry) (r : Reference) (s : Nat) :
    addressIn? (es ++ [.reference r]) s = addressIn? es s := by
  rw [addressIn?, List.findSome?_append, List.findSome?_singleton]
  exact Option.or_none

/-- A declaration refers to nothing. -/
theorem referenceIn?_declaration (es : List Entry) (symbol address a : Nat) :
    referenceIn? (es ++ [.declaration symbol address]) a = referenceIn? es a := by
  rw [referenceIn?, List.reverse_concat, List.findSome?_cons]
  rfl

/-- A further reference takes the place of those in front. -/
theorem referenceIn?_reference (es : List Entry) (r : Reference) (a : Nat) :
    referenceIn? (es ++ [.reference r]) a = if r.address = a then some r else referenceIn? es a := by
  rw [referenceIn?, List.reverse_concat, List.findSome?_cons]
  by_cases h : r.address = a
  · simp only [if_pos h]
  · simp only [if_neg h, referenceIn?]

/-- Entries are told one behind the other. -/
theorem ofEntries_concat (es : List Entry) (e : Entry) : ofEntries (es ++ [e]) = (ofEntries es).enter e := by
  rw [ofEntries, List.foldl_append]
  rfl

/-! ## References in order -/

/-- References are in the order of their addresses, of which there is one each. -/
def Ordered (rs : List Reference) : Prop := rs.Pairwise (·.address < ·.address)

/-- A reference that is put among others takes the place of one at its address, and all others stay. -/
theorem mem_insertReference {r s : Reference} {rs : List Reference} (h : Ordered rs) :
    s ∈ insertReference r rs ↔ s = r ∨ s ∈ rs ∧ s.address ≠ r.address := by
  induction rs with
  | nil => simp [insertReference]
  | cons t rs ih =>
    obtain ⟨ht, hrs⟩ := List.pairwise_cons.1 h
    have hbehind : s ∈ rs → t.address < s.address := ht s
    have hrest := ih hrs
    rw [insertReference]
    split
    · -- in front of all others, whose addresses are greater
      grind
    · split
      · -- in place of the first
        grind
      · grind

/-- References in the order of their addresses stay so when one more is put among them. -/
theorem Ordered.insertReference {rs : List Reference} (h : Ordered rs) (r : Reference) : Ordered (insertReference r rs) := by
  induction rs with
  | nil => exact List.pairwise_singleton ..
  | cons t rs ih =>
    obtain ⟨ht, hrs⟩ := List.pairwise_cons.1 h
    rw [Linkage.insertReference]
    split
    · rename_i hlt
      refine List.pairwise_cons.2 ⟨?_, h⟩
      intro u hu
      rcases List.mem_cons.1 hu with rfl | hu
      · exact hlt
      · exact Nat.lt_trans hlt (ht u hu)
    · split
      · rename_i heq
        exact List.pairwise_cons.2 ⟨fun u hu => heq ▸ ht u hu, hrs⟩
      · rename_i hge hne
        refine List.pairwise_cons.2 ⟨?_, ih hrs⟩
        intro u hu
        rcases (mem_insertReference hrs).1 hu with rfl | ⟨hu, -⟩
        · omega
        · exact ht u hu

/-- A linkage holds what entries told it. -/
structure Holds (l : Linkage) (es : List Entry) : Prop where
  get?_eq : ∀ symbol, l.get? symbol = addressIn? es symbol
  ordered : Ordered l.references
  mem_iff : ∀ r, r ∈ l.references ↔ referenceIn? es r.address = some r

/-- A further declaration gives an address to a symbol that has none. -/
theorem get?_enter_declaration (l : Linkage) (symbol address s : Nat) :
    (l.enter (.declaration symbol address)).get? s = (l.get? s).or (if symbol = s then some address else none) := by
  change ((l.declare symbol address).getD l).get? s = _
  unfold Linkage.declare
  split
  · -- the symbol has an address already, and keeps it
    rename_i hknown
    rw [Option.getD_none]
    split
    · rename_i hs
      obtain ⟨target, htarget⟩ := Option.isSome_iff_exists.1 hknown
      rw [← hs, htarget, Option.some_or]
    · rw [Option.or_none]
  · rw [Option.getD_some, get?, List.lookup_append]
    congr 1
    by_cases hs : symbol = s
    · rw [if_pos hs, hs, List.lookup_cons_self]
    · rw [if_neg hs, List.lookup_cons, beq_false_of_ne (Ne.symm hs)]
      rfl

/-- A declaration leaves the references as they are. -/
theorem references_enter_declaration (l : Linkage) (symbol address : Nat) :
    (l.enter (.declaration symbol address)).references = l.references := by
  change ((l.declare symbol address).getD l).references = _
  unfold Linkage.declare
  split <;> rfl

/-- A linkage that is told of a declaration holds it behind what it held. -/
theorem Holds.declaration {l : Linkage} {es : List Entry} (h : l.Holds es) (symbol address : Nat) :
    (l.enter (.declaration symbol address)).Holds (es ++ [.declaration symbol address]) where
  get?_eq s := by rw [get?_enter_declaration, addressIn?_declaration, h.get?_eq]
  ordered := by
    rw [references_enter_declaration]
    exact h.ordered
  mem_iff r := by
    rw [references_enter_declaration, referenceIn?_declaration]
    exact h.mem_iff r

/-- A linkage that is told of a reference holds it behind what it held. -/
theorem Holds.reference {l : Linkage} {es : List Entry} (h : l.Holds es) (r : Reference) :
    (l.enter (.reference r)).Holds (es ++ [.reference r]) where
  get?_eq s := by
    rw [addressIn?_reference]
    exact h.get?_eq s
  ordered := h.ordered.insertReference r
  mem_iff s := by
    rw [referenceIn?_reference]
    refine (mem_insertReference h.ordered).trans ?_
    by_cases hs : r.address = s.address
    · rw [if_pos hs]
      constructor
      · rintro (rfl | ⟨-, hne⟩)
        · rfl
        · exact absurd hs.symm hne
      · intro heq
        exact .inl (Option.some.inj heq).symm
    · rw [if_neg hs, ← h.mem_iff]
      constructor
      · rintro (rfl | ⟨hmem, -⟩)
        · exact absurd rfl hs
        · exact hmem
      · intro hmem
        exact .inr ⟨hmem, Ne.symm hs⟩

/-- A linkage holds what it was told. -/
theorem holds_ofEntries (es : List Entry) : (ofEntries es).Holds es := by
  induction es using List.reverseRecOn with
  | nil => exact ⟨fun _ => rfl, .nil, fun r => ⟨nofun, nofun⟩⟩
  | append_singleton es e ih =>
    rw [ofEntries_concat]
    cases e with
    | declaration symbol address => exact ih.declaration symbol address
    | reference r => exact ih.reference r

/-- The reference at an address has this address. -/
theorem address_of_referenceIn? {es : List Entry} {a : Nat} {r : Reference} (h : referenceIn? es a = some r) :
    r.address = a := by
  obtain ⟨e, -, he⟩ := List.exists_of_findSome?_eq_some h
  cases e with
  | declaration => nomatch he
  | reference s =>
    dsimp only at he
    split at he
    · obtain rfl := Option.some.inj he
      assumption
    · nomatch he

/-! ## Reference by reference -/

section

variable {address? : Nat → Option Nat} {rs done : List Reference} {p q : Program}

/-- The words that references are at have the targets that their symbols have for addresses, and all other words are as before. -/
structure Patched (address? : Nat → Option Nat) (done : List Reference) (p q : Program) : Prop extends p.SameOutline q where
  patched : ∀ r ∈ done, ∃ target, address? r.symbol = some target ∧
    q.get? r.address = (p.get? r.address).map (·.withTarget target)
  untouched : ∀ a, (∀ r ∈ done, r.address ≠ a) → q.get? a = p.get? a

theorem Patched.nil (address? : Nat → Option Nat) (p : Program) : Patched address? [] p p :=
  ⟨.refl p, nofun, fun _ _ => rfl⟩

/-- One more reference is patched in front of others, none of which is at its address. -/
theorem Patched.cons {r : Reference} {target : Nat} (htarget : address? r.symbol = some target)
    (hdone : ∀ s ∈ done, s.address ≠ r.address) (h : Patched address? done (p.patch r.address target) q) :
    Patched address? (r :: done) p q := by
  refine ⟨.of_patch h.toSameOutline, List.forall_mem_cons.2 ⟨⟨target, htarget, ?_⟩, ?_⟩, ?_⟩
  · rw [h.untouched _ hdone, Program.get?_patch, if_pos rfl]
  · intro s hs
    obtain ⟨target', hsymbol, hget⟩ := h.patched s hs
    rw [Program.get?_patch, if_neg (hdone s hs)] at hget
    exact ⟨target', hsymbol, hget⟩
  · intro a ha
    obtain ⟨hr, hrest⟩ := List.forall_mem_cons.1 ha
    rw [h.untouched a hrest, Program.get?_patch, if_neg (Ne.symm hr)]

/-- Either all references are patched, or those in front of the first whose symbol has no address, and that one is objected to. -/
theorem patchAll_cases (address? : Nat → Option Nat) (spelling? : Nat → Option String) (h : Ordered rs) (p : Program) :
    (∃ q, patchAll address? spelling? p rs = (q, none) ∧ Patched address? rs p q) ∨
      ∃ done r rest q, rs = done ++ r :: rest ∧ address? r.symbol = none ∧ Patched address? done p q ∧
        patchAll address? spelling? p rs = (q, some ⟨.undefinedCommand ((spelling? r.symbol).getD "?"), r.position⟩) := by
  induction rs generalizing p with
  | nil => exact .inl ⟨p, rfl, .nil address? p⟩
  | cons r rs ih =>
    obtain ⟨hr, hrs⟩ := List.pairwise_cons.1 h
    rw [patchAll]
    cases htarget : address? r.symbol with
    | none => exact .inr ⟨[], r, rs, p, rfl, htarget, .nil address? p, rfl⟩
    | some target =>
      dsimp only
      rcases ih hrs (p.patch r.address target) with ⟨q, hq, hpatched⟩ | ⟨done, s, rest, q, rfl, hs, hpatched, hq⟩
      · exact .inl ⟨q, hq, hpatched.cons htarget fun s hs => Nat.ne_of_gt (hr s hs)⟩
      · refine .inr ⟨r :: done, s, rest, q, rfl, hs, hpatched.cons htarget ?_, hq⟩
        intro t ht
        exact Nat.ne_of_gt (hr t (List.mem_append_left _ ht))

end

/-! ## What entries come to -/

/-- Of the words that entries refer to, those at some addresses have got the low twelve bits of the address that their symbol is
declared at for a target, in the same category and with the same line. All other words are as before. -/
structure PatchedAt (es : List Entry) (at? : Nat → Prop) (p q : Program) : Prop extends p.SameOutline q where
  patched : ∀ a r, at? a → referenceIn? es a = some r → ∃ target i j, addressIn? es r.symbol = some target ∧
    p.instructions[a]? = some i ∧ q.instructions[a]? = some j ∧ j.category = i.category ∧ j.line = i.line ∧
    j.target = target % Opcode.operands
  untouched : ∀ a, (at? a → referenceIn? es a = none) → q.get? a = p.get? a

/-- Patching what a linkage holds at some addresses patches what the entries refer to there. -/
theorem Patched.patchedAt {l : Linkage} {es : List Entry} {done : List Reference} {at? : Nat → Prop} {p q : Program}
    (hl : l.Holds es) (hsize : ∀ a r, referenceIn? es a = some r → a < p.size)
    (hdone : ∀ r, r ∈ done ↔ r ∈ l.references ∧ at? r.address) (h : Patched l.get? done p q) : PatchedAt es at? p q := by
  refine ⟨h.toSameOutline, ?_, ?_⟩
  · intro a r ha hr
    obtain rfl := address_of_referenceIn? hr
    have hlt := hsize _ _ hr
    obtain ⟨target, htarget, hget⟩ := h.patched r ((hdone r).2 ⟨(hl.mem_iff r).2 hr, ha⟩)
    obtain ⟨i, hi⟩ : ∃ i, p.instructions[r.address]? = some i :=
      ⟨_, List.getElem?_eq_getElem (by rwa [p.length_instructions])⟩
    rw [Program.get?_eq_of_instructions hi] at hget
    obtain ⟨hcategory, hlow⟩ := i.parts_withTarget target
    refine ⟨target, i, i.withTarget target, ?_, hi, ?_, hcategory, rfl, hlow⟩
    · rw [← hl.get?_eq, htarget]
    · exact Program.instructions_of_get? hget (by rwa [h.size_eq])
  · intro a ha
    refine h.untouched a ?_
    rintro r hr rfl
    obtain ⟨hmem, hat⟩ := (hdone r).1 hr
    nomatch (ha hat).symm.trans ((hl.mem_iff r).1 hmem)

/-- Either every reference is patched, or those at the addresses in front of the first whose symbol is not declared, and that one is
reported. -/
theorem link_cases {es : List Entry} {l : Linkage} (hl : l.Holds es) (spelling? : Nat → Option String) {p : Program}
    (hsize : ∀ a r, referenceIn? es a = some r → a < p.size) :
    (∃ q, l.link spelling? p = (⟨l.declared, []⟩, q, none) ∧ PatchedAt es (fun _ => True) p q) ∨
      ∃ q a r, l.link spelling? p =
          (⟨l.declared, []⟩, q, some ⟨.undefinedCommand ((spelling? r.symbol).getD "?"), r.position⟩) ∧
        referenceIn? es a = some r ∧ addressIn? es r.symbol = none ∧ PatchedAt es (· < a) p q := by
  unfold link
  rcases patchAll_cases l.get? spelling? hl.ordered p with
    ⟨q, hq, hpatched⟩ | ⟨done, r, rest, q, hsplit, hr, hpatched, hq⟩
  · rw [hq]
    exact .inl ⟨q, rfl, hpatched.patchedAt hl hsize fun s => ⟨fun hs => ⟨hs, trivial⟩, And.left⟩⟩
  · rw [hq]
    have hmem : r ∈ l.references := hsplit ▸ List.mem_append_right done List.mem_cons_self
    refine .inr ⟨q, r.address, r, rfl, (hl.mem_iff r).1 hmem, hl.get?_eq r.symbol ▸ hr, hpatched.patchedAt hl hsize ?_⟩
    -- of the references in order, those in front of one are those at smaller addresses
    have hordered := hl.ordered
    rw [hsplit] at hordered
    obtain ⟨-, hrest, hbefore⟩ := List.pairwise_append.1 hordered
    intro s
    rw [hsplit, List.mem_append, List.mem_cons]
    constructor
    · intro hs
      exact ⟨.inl hs, hbefore s hs r List.mem_cons_self⟩
    · rintro ⟨hs | rfl | hs, hlt⟩
      · exact hs
      · exact absurd hlt (Nat.lt_irrefl _)
      · exact absurd hlt (Nat.lt_asymm ((List.pairwise_cons.1 hrest).1 s hs))

/-- Linking patches exactly the recorded references and reports the first missing symbol. A linkage holds of what it is told the first
declaration of each symbol, so that it refuses every further one, and the last reference at each address. If all words that are
referred to have been put into memory, then linking succeeds exactly if every symbol that is referred to is declared, and patches the
words at all of these addresses. Otherwise it reports the reference at the smallest address whose symbol is not declared, with the
spelling of this symbol, and patches the words at smaller addresses. Either way no reference is left, and every declaration is. -/
theorem link_patches_recorded (es : List Entry) (spelling? : Nat → Option String) (p : Program)
    (h : ∀ a r, referenceIn? es a = some r → a < p.size) :
    (ofEntries es).Holds es ∧
      (∀ symbol address, (ofEntries es).declare symbol address = none ↔ ∃ target, addressIn? es symbol = some target) ∧
      ∃ q problem, (ofEntries es).link spelling? p = (⟨(ofEntries es).declared, []⟩, q, problem) ∧
        (problem = none ↔ ∀ a r, referenceIn? es a = some r → ∃ target, addressIn? es r.symbol = some target) ∧
        (problem = none → PatchedAt es (fun _ => True) p q) ∧
        ∀ e, problem = some e → ∃ a r, referenceIn? es a = some r ∧ addressIn? es r.symbol = none ∧
          (∀ b s, b < a → referenceIn? es b = some s → ∃ target, addressIn? es s.symbol = some target) ∧
          e = ⟨.undefinedCommand ((spelling? r.symbol).getD "?"), r.position⟩ ∧ PatchedAt es (· < a) p q := by
  have hl := holds_ofEntries es
  refine ⟨hl, ?_, ?_⟩
  · intro symbol address
    rw [← hl.get?_eq, ← Option.isSome_iff_exists, declare]
    split
    · rename_i hknown
      exact ⟨fun _ => hknown, fun _ => rfl⟩
    · rename_i hnew
      exact ⟨nofun, fun hknown => absurd hknown hnew⟩
  · have hdeclared : ∀ {at? : Nat → Prop} {q}, PatchedAt es at? p q → ∀ a r, at? a → referenceIn? es a = some r →
        ∃ target, addressIn? es r.symbol = some target := by
      intro at? q hpatched a r ha hr
      obtain ⟨target, -, -, htarget, -⟩ := hpatched.patched a r ha hr
      exact ⟨target, htarget⟩
    rcases link_cases hl spelling? h with ⟨q, hlink, hpatched⟩ | ⟨q, a, r, hlink, hr, hmissing, hpatched⟩
    · refine ⟨q, none, hlink, ⟨fun _ a r => hdeclared hpatched a r trivial, fun _ => rfl⟩, fun _ => hpatched, nofun⟩
    · refine ⟨q, _, hlink, ⟨nofun, ?_⟩, nofun, ?_⟩
      · intro hall
        obtain ⟨target, htarget⟩ := hall a r hr
        nomatch hmissing.symm.trans htarget
      · rintro e ⟨⟩
        exact ⟨a, r, hr, hmissing, hdeclared hpatched, rfl, hpatched⟩

/-- Two calls, of which the one that is recorded first lies behind and names a symbol without a declaration. The other one is patched with
the low twelve bits of an address that is declared only then. -/
theorem link_patches_recorded_of_two :
    ∃ (p q : Program) (l : Linkage), p.instructions = [⟨0xa000, 1⟩, ⟨0xa000, 2⟩] ∧
      (ofEntries [.reference ⟨1, 17, 13⟩, .reference ⟨0, 4, 14⟩, .declaration 14 0x1002]).link
          (fun symbol => if symbol = 13 then some "ghost" else none) p =
        (l, q, some ⟨.undefinedCommand "ghost", 17⟩) ∧
      l = ⟨[(14, 0x1002)], []⟩ ∧ (∃ i, q.instructions[0]? = some i ∧ i.target = 2) ∧ q.get? 1 = some ⟨0xa000, 2⟩ := by
  let es : List Entry := [.reference ⟨1, 17, 13⟩, .reference ⟨0, 4, 14⟩, .declaration 14 0x1002]
  obtain ⟨p, hp⟩ : ∃ p, Program.empty.pushAll [⟨0xa000, 1⟩, ⟨0xa000, 2⟩] = .ok p := Program.exists_pushAll (by decide)
  obtain ⟨hsize, hinstructions, -⟩ := Program.pushAll_eq_ok hp
  have hreference : ∀ a r, referenceIn? es a = some r → a = 0 ∧ r = ⟨0, 4, 14⟩ ∨ a = 1 ∧ r = ⟨1, 17, 13⟩ := by
    intro a r hr
    simp only [es, referenceIn?, List.reverse_cons, List.reverse_nil, List.nil_append, List.cons_append,
      List.findSome?_cons, List.findSome?_nil] at hr
    grind
  have hwords : ∀ a r, referenceIn? es a = some r → a < p.size := by
    intro a r hr
    rw [hsize]
    rcases hreference a r hr with ⟨rfl, -⟩ | ⟨rfl, -⟩ <;> decide
  obtain ⟨-, -, q, problem, hlink, hnone, -, hsome⟩ :=
    link_patches_recorded es (fun symbol => if symbol = 13 then some "ghost" else none) p hwords
  cases problem with
  | none =>
    obtain ⟨target, htarget⟩ := hnone.1 rfl 1 ⟨1, 17, 13⟩ rfl
    nomatch htarget
  | some e =>
    obtain ⟨a, r, hr, hmissing, -, rfl, hpatched⟩ := hsome e rfl
    rcases hreference a r hr with ⟨rfl, rfl⟩ | ⟨rfl, rfl⟩
    · nomatch hmissing
    · refine ⟨p, q, _, hinstructions, hlink, rfl, ?_, ?_⟩
      · obtain ⟨target, i, j, htarget, -, hj, -, -, hlow⟩ := hpatched.patched 0 ⟨0, 4, 14⟩ Nat.zero_lt_one rfl
        obtain rfl := Option.some.inj htarget
        exact ⟨j, hj, hlow⟩
      · rw [hpatched.untouched 1 fun hlt => absurd hlt (Nat.lt_irrefl 1)]
        exact Program.get?_eq_of_instructions (by rw [hinstructions]; rfl)

end Linkage

end GridRobot
