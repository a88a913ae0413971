import GridRobot.Diagnostic

/-!
# What diagnostics quote

A problem is worded with a fixed text and, for some problems, with a piece of the text that was refused or with the name that was
asked for. Only what is quoted can break the line of a message (`SourceError.message_oneLine`).
-/

namespace GridRobot

namespace Text

/-- A text without line breaks. -/
def OneLine (s : String) : Prop := '\n' ∉ s.toList

instance (s : String) : Decidable (OneLine s) := inferInstanceAs (Decidable ('\n' ∉ s.toList))

/-- Texts in one line make one line. -/
theorem OneLine.append {s t : String} (hs : OneLine s) (ht : OneLine t) : OneLine (s ++ t) := by
  unfold OneLine
  rw [String.toList_append, List.mem_append, not_or]
  exact ⟨hs, ht⟩

/-- A number is written on one line. -/
theorem oneLine_toString (n : Nat) : OneLine (toString n) := by
  intro h
  rw [show (toString n).toList = Nat.toDigits 10 n from Nat.toList_repr] at h
  nomatch Nat.isDigit_of_mem_toDigits (by decide) (by decide) h

end Text

open Text

namespace Problem

/-- What the wording of a problem quotes. -/
def quotes : Problem → List String
  | strayCharacter c => [c.toString]
  | countOutOfRange s | builtinCommand s | duplicateCommand s | undefinedCommand s | unknownMnemonic s => [s]
  | _ => []

/-- Whatever a problem quotes has a property. -/
def QuotesOnly (T : String → Prop) (p : Problem) : Prop := ∀ s ∈ p.quotes, T s

/-- A problem that quotes nothing quotes only what is allowed. -/
theorem QuotesOnly.nothing {T : String → Prop} {p : Problem} (h : p.quotes = []) : p.QuotesOnly T := by
  rw [QuotesOnly, h]
  exact nofun

/-- A problem that quotes one text quotes only what is allowed if this is. -/
theorem QuotesOnly.one {T : String → Prop} {p : Problem} {s : String} (h : p.quotes = [s]) (hs : T s) : p.QuotesOnly T := by
  rw [QuotesOnly, h]
  exact List.forall_mem_singleton.2 hs

/-- A problem is worded on one line unless it quotes more. -/
theorem text_oneLine {p : Problem} (h : p.QuotesOnly OneLine) : OneLine p.text := by
  have hquoted : ∀ {s}, p.quotes = [s] → OneLine s := fun hs => h _ (hs ▸ List.mem_singleton_self _)
  cases p with
  | strayCharacter c => exact .append (by decide) (hquoted rfl)
  | countOutOfRange s | builtinCommand s => exact .append (hquoted rfl) (by decide)
  | duplicateCommand s | undefinedCommand s | unknownMnemonic s => exact .append (by decide) (hquoted rfl)
  | expected kind => exact .append (by decide) (by cases kind <;> decide)
  | illegalStart construct => exact .append (by decide) (by cases construct <;> decide)
  | _ => decide

end Problem

/-- What is said about an error is on one line unless it quotes more. -/
theorem SourceError.message_oneLine {e : SourceError} (h : e.problem.QuotesOnly OneLine) : OneLine e.diagnostic.message := by
  have htitle : OneLine e.problem.code.title := by cases e.problem.code <;> decide
  have hplace : OneLine (e.problem.code.title ++ s!" AT {e.position}") :=
    htitle.append (.append (by decide) (oneLine_toString e.position))
  have hmessage : e.diagnostic.message = if e.problem.text.isEmpty then e.problem.code.title ++ s!" AT {e.position}"
      else e.problem.code.title ++ s!" AT {e.position}" ++ "; " ++ e.problem.text := rfl
  by_cases hempty : e.problem.text.isEmpty = true
  · rw [hmessage, if_pos hempty]
    exact hplace
  · rw [hmessage, if_neg hempty]
    exact .append (hplace.append (by decide)) (Problem.text_oneLine h)

end GridRobot
