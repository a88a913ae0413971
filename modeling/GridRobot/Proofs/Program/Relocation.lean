import GridRobot.Proofs.Program.Linking

/-!
# Code and the targets of its calls

Code whose calls lack their targets is relocated by references that are in the order of its words: linking code in memory puts in its
place the code that has the targets (`Relocated.patchAll`). References that are recorded in the order of their addresses are patched in
this order, so the first call of a symbol that is not declared is the one that is reported (`patchAll_problem`).
-/

namespace GridRobot

/-! ## References in the order of their addresses -/

namespace Linkage

/-- The references among entries. -/
def referencesOf (es : List Entry) : List Reference :=
  es.filterMap fun
    | .declaration _ _ => none
    | .reference r => some r

theorem referencesOf_append (es fs : List Entry) : referencesOf (es ++ fs) = referencesOf es ++ referencesOf fs :=
  List.filterMap_append

theorem referencesOf_map (rs : List Reference) : referencesOf (rs.map .reference) = rs := by
  rw [referencesOf, List.filterMap_map]
  exact List.filterMap_some

/-- A reference behind all others is put behind them. -/
theorem insertReference_of_lt {r : Reference} {rs : List Reference} (h : ∀ s ∈ rs, s.address < r.address) :
    insertReference r rs = rs ++ [r] := by
  induction rs with
  | nil => rfl
  | cons s rs ih =>
    obtain ⟨hs, hrs⟩ := List.forall_mem_cons.1 h
    rw [insertReference, if_neg (Nat.lt_asymm hs), if_neg (Nat.ne_of_gt hs), ih hrs, List.cons_append]

/-- References that are recorded in the order of their addresses stay in this order. -/
theorem references_ofEntries {es : List Entry} (h : Ordered (referencesOf es)) :
    (ofEntries es).references = referencesOf es := by
  induction es using List.reverseRecOn with
  | nil => rfl
  | append_singleton es e ih =>
    rw [referencesOf_append] at h ⊢
    obtain ⟨hes, -, hbefore⟩ := List.pairwise_append.1 h
    rw [ofEntries_concat]
    cases e with
    | declaration symbol address =>
      rw [references_enter_declaration, ih hes]
      exact (List.append_nil _).symm
    | reference r =>
      change insertReference r (ofEntries es).references = _
      rw [ih hes]
      exact insertReference_of_lt fun s hs => hbefore s hs r List.mem_cons_self

/-- The symbol declared first stays the first. -/
theorem first?_ofEntries (symbol address : Nat) (es : List Entry) :
    (ofEntries (.declaration symbol address :: es)).first? = some (symbol, address) := by
  induction es using List.reverseRecOn with
  | nil => rfl
  | append_singleton es e ih =>
    rw [← List.cons_append, ofEntries_concat]
    cases e with
    | declaration s a =>
      change ((Linkage.declare _ s a).getD _).first? = _
      unfold Linkage.declare
      split
      · exact ih
      · rw [Option.getD_some, first?, List.head?_append]
        rw [first?] at ih
        rw [ih, Option.some_or]
    | reference r => exact ih

theorem addressIn?_append (es fs : List Entry) (s : Nat) : addressIn? (es ++ fs) s = (addressIn? es s).or (addressIn? fs s) :=
  List.findSome?_append

/-- A declaration in front counts before all others. -/
theorem addressIn?_cons (es : List Entry) (symbol address s : Nat) :
    addressIn? (.declaration symbol address :: es) s = if symbol = s then some address else addressIn? es s := by
  rw [addressIn?, List.findSome?_cons]
  by_cases h : symbol = s
  · simp only [if_pos h]
  · simp only [if_neg h, addressIn?]

theorem addressIn?_map_reference (rs : List Reference) (s : Nat) : addressIn? (rs.map .reference) s = none := by
  rw [addressIn?, List.findSome?_map, List.findSome?_eq_none_iff]
  exact fun _ _ => rfl

/-- The problem that patching meets is that of the first reference whose symbol has no address. Only symbols and positions count. -/
theorem patchAll_problem (address? : Nat → Option Nat) (spelling? : Nat → Option String) (p : Program) (rs : List Reference) :
    (patchAll address? spelling? p rs).2 =
      ((rs.map fun r => (r.symbol, r.position)).find? fun call => (address? call.1).isNone).map fun call =>
        ⟨.undefinedCommand ((spelling? call.1).getD "?"), call.2⟩ := by
  induction rs generalizing p with
  | nil => rfl
  | cons r rs ih =>
    rw [patchAll, List.map_cons, List.find?_cons]
    cases address? r.symbol with
    | some target => exact ih _
    | none => rfl

end Linkage

/-! ## Code with and without its targets -/

/-- From an address on, code that lacks the targets of its calls, the references that are recorded for them, and the code that has
them. All other words are the same. -/
inductive Relocated (target : Nat → Nat) : Nat → List Instruction → List Reference → List Instruction → Prop where
  | nil (a : Nat) : Relocated target a [] [] []
  | same {a : Nat} (i : Instruction) {is js : List Instruction} {rs : List Reference} :
      Relocated target (a + 1) is rs js → Relocated target a (i :: is) rs (i :: js)
  | call {a : Nat} (i : Instruction) (position symbol : Nat) {is js : List Instruction} {rs : List Reference} :
      Relocated target (a + 1) is rs js →
      Relocated target a (i :: is) (⟨a, position, symbol⟩ :: rs) (i.withTarget (target symbol) :: js)

namespace Relocated

variable {target : Nat → Nat} {a : Nat} {is is' js js' : List Instruction} {rs rs' : List Reference}

/-- Two parts are relocated one behind the other. -/
theorem append (h : Relocated target a is rs js) {b : Nat} (hb : a + is.length = b)
    (h' : Relocated target b is' rs' js') : Relocated target a (is ++ is') (rs ++ rs') (js ++ js') := by
  subst hb
  induction h with
  | nil a => exact h'
  | same i _ ih =>
    rw [List.length_cons, ← Nat.add_assoc, Nat.add_right_comm] at h'
    exact .same i (ih h')
  | call i position symbol _ ih =>
    rw [List.length_cons, ← Nat.add_assoc, Nat.add_right_comm] at h'
    exact .call i position symbol (ih h')

/-- Code without calls is what it is. -/
theorem refl (a : Nat) (is : List Instruction) : Relocated target a is [] is := by
  induction is generalizing a with
  | nil => exact .nil a
  | cons i _ ih => exact .same i (ih _)

/-- Code stays relocated in front of words that are the same. -/
theorem before (h : Relocated target a is rs js) (more : List Instruction) :
    Relocated target a (is ++ more) rs (js ++ more) := by
  have := h.append rfl (.refl (a + is.length) more)
  rwa [List.append_nil] at this

/-- The references are in the order of their addresses, none of which is in front of the code. -/
theorem ordered (h : Relocated target a is rs js) : Linkage.Ordered rs ∧ ∀ r ∈ rs, a ≤ r.address := by
  induction h with
  | nil a => exact ⟨.nil, nofun⟩
  | same i _ ih => exact ⟨ih.1, fun r hr => Nat.le_of_succ_le (ih.2 r hr)⟩
  | call i position symbol _ ih =>
    refine ⟨List.pairwise_cons.2 ⟨fun r hr => ih.2 r hr, ih.1⟩, List.forall_mem_cons.2 ⟨Nat.le_refl _, ?_⟩⟩
    exact fun r hr => Nat.le_of_succ_le (ih.2 r hr)

/-- Patching the references in memory makes the one code of the other, if all symbols have their addresses. -/
theorem patchAll (h : Relocated target a is rs js) {address? : Nat → Option Nat} (spelling? : Nat → Option String)
    (hall : ∀ r ∈ rs, address? r.symbol = some (target r.symbol)) {front : List Instruction} {p : Program}
    (hfront : front.length = a) (hp : Program.empty.pushAll (front ++ is) = .ok p) :
    ∃ q, Linkage.patchAll address? spelling? p rs = (q, none) ∧ Program.empty.pushAll (front ++ js) = .ok q := by
  induction h generalizing front p with
  | nil a => exact ⟨p, rfl, hp⟩
  | @same a i is js rs _ ih =>
    rw [List.append_cons] at hp ⊢
    exact ih hall (by rw [List.length_append, hfront]; rfl) hp
  | @call a i position symbol is js rs _ ih =>
    obtain ⟨htarget, hall⟩ := List.forall_mem_cons.1 hall
    have hpatch : Program.empty.pushAll (front ++ i.withTarget (target symbol) :: is) = .ok (p.patch a (target symbol)) :=
      hfront ▸ Program.pushAll_patch front hp (target symbol)
    rw [List.append_cons] at hpatch ⊢
    rw [Linkage.patchAll, show address? symbol = some (target symbol) from htarget]
    exact ih hall (by rw [List.length_append, hfront]; rfl) hpatch

end Relocated

end GridRobot
