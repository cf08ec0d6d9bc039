/-
# Reading ignores case

Texts that differ in the case of letters alone, and not inside string literals, are read as programs that differ in
the case of their names alone, with reports at the same places (`parseProgram_fold`).
-/
import BasicCompiler.Proofs.Source.Rereading
import BasicCompiler.Proofs.Token.Casing

namespace BasicCompiler

open List

def Rewording.caseless : Rewording where
  name := fold
  place := id
  name_same a b := by simp only [sameName, fold_fold]
  place_join _ _ := rfl
  place_none := rfl

/-! ## Reports -/

def Report.outline (r : Report) : Severity × Span := (r.severity, r.span)

def Outcome.outline {α : Type} (o : Outcome α) : List (Severity × Span) := o.reports.map Report.outline

/-- Outcomes that `act` does not tell apart, with reports at the same places. -/
structure Outcome.Alike {α β : Type} (act : α → β) (o o' : Outcome α) : Prop where
  result : o.result.map act = o'.result.map act
  outline : o.outline = o'.outline

/-! ## Tokens -/

def Token.string? (t : Token) : Option String :=
  match t.kind with
  | .literal (.str text) => some text
  | _ => none

/-- The texts of the string literals, in order. -/
def TokenStream.strings (s : TokenStream) : List String := s.tokens.filterMap Token.string?

theorem Token.string?_lowered (t : Token) : t.lowered.string? = t.string?.map fold := by
  obtain ⟨kind, text, span, startsLine, isVirtual⟩ := t
  cases kind with
  | literal value => cases value <;> rfl
  | _ => rfl

theorem TokenKind.eq_of_lowered {kind kind' : TokenKind} (same : kind.lowered = kind'.lowered)
    (strings : ∀ text text', kind = .literal (.str text) → kind' = .literal (.str text') → text = text') :
    kind = kind' := by
  cases kind with
  | literal value =>
    cases kind' with
    | literal value' =>
      cases value with
      | str text =>
        cases value' with
        | str text' => rw [strings text text' rfl rfl]
        | _ => cases same
      | _ =>
        cases value' with
        | str text' => cases same
        | _ => exact same
    | _ => cases same
  | _ =>
    cases kind' with
    | literal value' => cases same
    | _ => exact same

/-- Tokens that differ in case alone differ in the case of names, unless they are string
literals with different texts. -/
theorem Token.caseless_eq {t t' : Token} (same : t.lowered = t'.lowered) (strings : t.string? = t'.string?) :
    Rewording.caseless.token t = Rewording.caseless.token t' := by
  obtain ⟨kind, text, span, startsLine, isVirtual⟩ := t
  obtain ⟨kind', text', span', startsLine', isVirtual'⟩ := t'
  obtain ⟨kinds, texts, rfl, rfl, rfl⟩ := Token.mk.inj same
  have kinds : kind = kind' := by
    refine TokenKind.eq_of_lowered kinds fun string string' is is' => ?_
    subst is is'
    exact Option.some.inj strings
  subst kinds
  exact congrArg (Token.mk kind · span startsLine false) texts

theorem caseless_tokens {ts ts' : List Token} (same : ts.map Token.lowered = ts'.map Token.lowered)
    (strings : ts.filterMap Token.string? = ts'.filterMap Token.string?) :
    ts.map Rewording.caseless.token = ts'.map Rewording.caseless.token := by
  induction ts generalizing ts' with
  | nil =>
    cases ts' with
    | nil => rfl
    | cons t' ts' => cases same
  | cons t ts ih =>
    cases ts' with
    | nil => cases same
    | cons t' ts' =>
      obtain ⟨first, rest⟩ := cons.inj same
      have folded : t.string?.map fold = t'.string?.map fold := by
        rw [← t.string?_lowered, first, t'.string?_lowered]
      rw [filterMap_cons, filterMap_cons] at strings
      have both : t.string? = t'.string? ∧ ts.filterMap Token.string? = ts'.filterMap Token.string? := by
        cases text : t.string? with
        | none =>
          cases text' : t'.string? with
          | none =>
            rw [text, text'] at strings
            exact ⟨rfl, strings⟩
          | some string' => rw [text, text'] at folded; cases folded
        | some string =>
          cases text' : t'.string? with
          | none => rw [text, text'] at folded; cases folded
          | some string' =>
            rw [text, text'] at strings
            obtain ⟨heads, tails⟩ := cons.inj strings
            exact ⟨congrArg some heads, tails⟩
      rw [map_cons, map_cons, Token.caseless_eq first both.1, ih rest both.2]

/-! ## Programs -/

namespace Source

theorem lexReports_lowered (same : s.lowered = s'.lowered) (unseen : Nat) :
    lexReports s unseen = lexReports s' unseen := by
  have faults (s : TokenStream) (count : Nat) : s.lowered.faultsUpTo count = s.faultsUpTo count := by
    simp only [TokenStream.faultsUpTo, TokenStream.toList, TokenStream.lowered]
    rw [show s.lexemes.map Lexeme.lowered ++ [s.eof.lowered] = (s.lexemes ++ [s.eof]).map Lexeme.lowered by simp,
      ← map_take, flatMap_map]
    rfl
  have length : s.lexemes.length = s'.lexemes.length := by
    have := congrArg (fun s => s.lexemes.length) same
    simpa only [TokenStream.lowered, length_map] using this
  rw [lexReports, lexReports, ← faults s, ← faults s', same, length]

theorem reportsOf_outline (streams : s.lowered = s'.lowered)
    (same : es.map (ParseError.reword .caseless) = es'.map (ParseError.reword .caseless)) (unseen : Nat) :
    (reportsOf s unseen es).map Report.outline = (reportsOf s' unseen es').map Report.outline := by
  induction es generalizing es' with
  | nil =>
    obtain rfl : es' = [] := map_eq_nil_iff.mp same.symm
    rw [reportsOf, reportsOf, lexReports_lowered streams]
  | cons e rest ih =>
    obtain ⟨e', rest', rfl, first, others⟩ := map_eq_cons_iff.mp same.symm
    obtain ⟨-, span, seen⟩ := ParseError.mk.inj first
    have places : e'.report.outline = e.report.outline := congrArg (Prod.mk Severity.error) span
    simp only [reportsOf, map_append, map_cons, map_drop, ih others.symm, places, seen, lexReports_lowered streams]

/-- Texts that differ in case alone, and have the same string literals, are read as programs
with the same names up to case, and with reports at the same places. -/
theorem parseProgram_fold {text text' : String} (same : fold text = fold text')
    (strings : (TokenStream.ofText text).strings = (TokenStream.ofText text').strings) :
    (parseProgram text).Alike (Program.reword .caseless) (parseProgram text') := by
  have streams : (TokenStream.ofText text).lowered = (TokenStream.ofText text').lowered := by
    rw [← TokenStream.ofText_fold, same, TokenStream.ofText_fold]
  have lowered (s : TokenStream) : s.lowered.tokens = s.tokens.map Token.lowered := by
    simp only [TokenStream.tokens, TokenStream.toList, TokenStream.lowered, map_append, map_map, map_cons, map_nil]
    rfl
  have tokens := caseless_tokens (by rw [← lowered, streams, lowered]) strings
  unfold parseProgram runParse
  rcases program_of_tokens tokens with ⟨es, es', run, run', errors⟩ | ⟨p, p', r, r', run, run', trees, unread, told⟩
  · have length : (TokenStream.ofText text).lexemes.length = (TokenStream.ofText text').lexemes.length := by
      have := congrArg (fun s => s.lexemes.length) streams
      simpa only [TokenStream.lowered, length_map] using this
    rw [run, run']
    dsimp only
    rw [length]
    exact ⟨rfl, reportsOf_outline streams errors _⟩
  · rw [run, run']
    dsimp only
    rw [unread]
    exact ⟨congrArg some trees, reportsOf_outline streams told _⟩

end Source

end BasicCompiler
