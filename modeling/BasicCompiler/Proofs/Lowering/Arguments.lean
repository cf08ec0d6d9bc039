/-
# The parameters that arguments go to

Arguments are bound to parameters from the left, and the last parameter may take several. So how many arguments a
parameter gets depends on its place alone.
-/
import BasicCompiler.Proofs.Lowering.Run
import BasicCompiler.Proofs.Types.Pattern
import Mathlib.Tactic.ByContra

namespace BasicCompiler

open List Bool

/-! ## Parameters -/

/-- Whether each call has to give the parameter. -/
def Param.isRequired (p : Param) : Bool := p.count = .once || p.count = .oneOrMore

/-- Nothing that may be left out stands before what may not. -/
def RequiredFirst (params : List Param) : Prop := params.Pairwise fun p q => q.isRequired = true → p.isRequired = true

instance (params : List Param) : Decidable (RequiredFirst params) :=
  inferInstanceAs (Decidable (params.Pairwise fun p q => q.isRequired = true → p.isRequired = true))

/-- The parameters of a command, as its pattern lists them, or those of a function, which
are all given once. -/
def IsParamList (params : List Param) : Prop :=
  (∃ pattern result members, parsePattern pattern = .ok (result :: members) ∧ params = members.map (·.toParam)) ∨
    ∀ p ∈ params, p.count = .once

/-- No parameter but the last is repeated. -/
def OnlyLastRepeated (params : List Param) : Prop := ∀ p ∈ params.dropLast, p.count.isRepeated = false

theorem IsParamList.onlyLastRepeated (h : IsParamList params) : OnlyLastRepeated params := by
  rcases h with ⟨pattern, result, members, parsed, rfl⟩ | once
  · obtain ⟨-, checked⟩ := parsePattern_ok.mp parsed
    intro p mem
    rw [← map_dropLast] at mem
    obtain ⟨m, inside, rfl⟩ := mem_map.mp mem
    refine (checkMembers_ok.mp checked).2.2 m ?_
    cases members with
    | nil => cases inside
    | cons first rest => exact mem_cons_of_mem _ inside
  · intro p mem
    rw [once p (dropLast_subset _ mem)]
    rfl

theorem OnlyLastRepeated.tail (h : OnlyLastRepeated (p :: params)) : OnlyLastRepeated params := by
  intro q mem
  cases params with
  | nil => cases mem
  | cons p' rest => exact h q (mem_cons_of_mem _ mem)

theorem OnlyLastRepeated.eq_nil (h : OnlyLastRepeated (p :: params)) (repeated : p.count.isRepeated = true) :
    params = [] := by
  cases params with
  | nil => rfl
  | cons p' rest =>
    have plain := h p mem_cons_self
    rw [repeated] at plain
    cases plain

/-! ## Required parameters -/

theorem leastArity_cons (p : Param) (params : List Param) :
    leastArity (p :: params) = leastArity params + if p.isRequired then 1 else 0 := by
  cases required : p.isRequired with
  | true => exact congrArg List.length (filter_cons_of_pos required)
  | false => exact congrArg List.length (filter_cons_of_neg (by rw [← Param.isRequired, required]; decide))

theorem RequiredFirst.lt_leastArity (ordered : RequiredFirst params) (isParam : params[j]? = some p)
    (required : p.isRequired = true) : j < leastArity params := by
  induction params generalizing j with
  | nil => cases isParam
  | cons q rest ih =>
    obtain ⟨before, ordered⟩ := pairwise_cons.mp ordered
    rw [leastArity_cons]
    cases j with
    | zero =>
      cases isParam
      rw [if_pos required]
      exact Nat.zero_lt_succ _
    | succ j =>
      rw [if_pos (before p (mem_of_getElem? isParam) required)]
      exact Nat.succ_lt_succ (ih ordered isParam)

theorem leastArity_le (below : ∀ j p, params[j]? = some p → p.isRequired = true → j < n) : leastArity params ≤ n := by
  induction params generalizing n with
  | nil => exact Nat.zero_le _
  | cons q rest ih =>
    have others : leastArity rest ≤ n - 1 := ih fun j p isParam required => by
      have := below (j + 1) p isParam required
      omega
    rw [leastArity_cons]
    split
    next required =>
      have := below 0 q rfl required
      omega
    next => omega

theorem requiredFirst_of_lt (below : ∀ j p, params[j]? = some p → p.isRequired = true → j < leastArity params) :
    RequiredFirst params := by
  induction params with
  | nil => exact .nil
  | cons q rest ih =>
    rw [leastArity_cons] at below
    cases required : q.isRequired with
    | true =>
      rw [if_pos required] at below
      refine pairwise_cons.mpr ⟨fun _ _ _ => required, ih fun j p isParam isRequired => ?_⟩
      exact Nat.lt_of_succ_lt_succ (below (j + 1) p isParam isRequired)
    | false =>
      rw [if_neg (by rw [required]; exact false_ne_true), Nat.add_zero] at below
      -- one place less is left for the others than there are of them, unless there are none
      have few : leastArity rest ≤ leastArity rest - 1 := by
        refine leastArity_le fun j p isParam isRequired => ?_
        have := below (j + 1) p isParam isRequired
        omega
      have none : ∀ p ∈ rest, p.isRequired ≠ true := by
        intro p mem isRequired
        obtain ⟨j, isParam⟩ := mem_iff_getElem?.mp mem
        have := below (j + 1) p isParam isRequired
        omega
      refine pairwise_cons.mpr ⟨fun p mem isRequired => absurd isRequired (none p mem), ?_⟩
      exact pairwise_of_forall_mem_list fun p _ r mem isRequired => absurd isRequired (none r mem)

/-! ## Bindings -/

/-- The number of arguments that go to a parameter. -/
def taken (bindings : List Binding) (param : Nat) : Nat := bindings.countP (·.param = param)

theorem bindFrom_cons (run : bindFrom index params (a :: rest) = some bindings) :
    ∃ p ps c others, params = p :: ps ∧ bindings = ⟨index, c⟩ :: others ∧ p.accept? a = some c ∧
      (if p.count.isRepeated then bindFrom index (p :: ps) rest else bindFrom (index + 1) ps rest) = some others := by
  cases params with
  | nil => cases run
  | cons p ps =>
    obtain ⟨c, accepted, run⟩ := Option.bind_eq_some_iff.mp run
    refine ⟨p, ps, c, ?_⟩
    split at run
    all_goals
      next repeated =>
        obtain ⟨others, bound, same⟩ := Option.bind_eq_some_iff.mp run
        cases same
        exact ⟨others, rfl, rfl, accepted, by rw [← bound]; simp [repeated]⟩

theorem bindFrom_le (run : bindFrom index params args = some bindings) : ∀ b ∈ bindings, index ≤ b.param := by
  induction args generalizing index params bindings with
  | nil =>
    cases run
    exact forall_mem_nil _
  | cons a rest ih =>
    obtain ⟨p, ps, c, others, rfl, rfl, -, bound⟩ := bindFrom_cons run
    intro b mem
    rcases mem_cons.mp mem with rfl | later
    · exact Nat.le_refl _
    · split at bound
      · exact ih bound b later
      · exact Nat.le_of_succ_le (ih bound b later)

theorem taken_bindFrom (last : OnlyLastRepeated params) (run : bindFrom index params args = some bindings)
    (isParam : params[j]? = some p) :
    taken bindings (index + j) =
      if p.count.isRepeated then args.length - j else if j < args.length then 1 else 0 := by
  induction args generalizing index params bindings j with
  | nil =>
    cases run
    simp [taken]
  | cons a rest ih =>
    obtain ⟨q, ps, c, others, rfl, rfl, -, bound⟩ := bindFrom_cons run
    cases repeated : q.count.isRepeated with
    | true =>
      rw [if_pos repeated] at bound
      obtain rfl := last.eq_nil repeated
      cases j with
      | zero =>
        cases isParam
        have others' := ih last bound (j := 0) rfl
        rw [if_pos repeated] at others' ⊢
        simp only [taken, Nat.add_zero, countP_cons_of_pos, decide_true] at others' ⊢
        rw [others', length_cons]
        rfl
      | succ j => cases isParam
    | false =>
      rw [if_neg (by rw [repeated]; exact false_ne_true)] at bound
      cases j with
      | zero =>
        cases isParam
        have apart : others.countP (·.param = index) = 0 := by
          refine countP_eq_zero.mpr fun b mem => ?_
          have := bindFrom_le bound b mem
          simp only [decide_eq_true_eq]
          omega
        simp [taken, repeated, apart]
      | succ j =>
        have others' := ih last.tail bound isParam
        have next : index + 1 + j = index + (j + 1) := by omega
        rw [next] at others'
        have own : taken (⟨index, c⟩ :: others) (index + (j + 1)) = taken others (index + (j + 1)) :=
          countP_cons_of_neg (by simp)
        rw [own, others', length_cons, Nat.add_sub_add_right]
        simp only [Nat.add_lt_add_iff_right]

/-! ## Passing -/

namespace Lowering

/-- What is passed for a parameter that is not repeated is the argument in its place, if
there is one; what is passed for the repeated one follows its number. -/
theorem commandArgs_get (last : OnlyLastRepeated params) (run : Lower.commandArgs params regs env s = .ok (out, s'))
    {j : Nat} (isParam : params[j]? = some p) (given : j < regs.length) :
    if p.count.isRepeated then out.drop (j + 1) = regs.drop j else out[j]? = regs[j]? := by
  induction params generalizing regs out s s' j with
  | nil => cases isParam
  | cons q rest ih =>
    unfold Lower.commandArgs at run
    cases repeated : q.count.isRepeated with
    | true =>
      rw [if_pos repeated] at run
      obtain ⟨number, s1, -, run⟩ := Lower.bind_ok.mp run
      cases run
      obtain rfl := last.eq_nil repeated
      cases j with
      | zero =>
        cases isParam
        rw [if_pos repeated]
        rfl
      | succ j => cases isParam
    | false =>
      rw [if_neg (by rw [repeated]; exact false_ne_true)] at run
      cases regs with
      | nil => cases given
      | cons reg regs =>
        obtain ⟨others, s1, passed, run⟩ := Lower.bind_ok.mp run
        cases run
        cases j with
        | zero =>
          cases isParam
          rw [if_neg (by rw [repeated]; exact false_ne_true)]
          rfl
        | succ j => exact ih last.tail passed isParam (Nat.lt_of_succ_lt_succ given)

end Lowering

/-! ## Calls -/

/-- A call that is bound gives an optional parameter at most one argument. Where the required
parameters come first, it gives each of them: what is passed for a parameter that is given
once is the argument bound to it, and what is passed for one that is given at least once are
arguments. Otherwise, a call with as few arguments as are accepted leaves out a required one. -/
theorem match_gives {o : Overload} {args : List Argument} {bindings : List Binding} (declared : IsParamList o.params)
    (run : o.match? args = some bindings) :
    (∀ j p, o.params[j]? = some p → p.count = .optional → taken bindings j ≤ 1) ∧
    (RequiredFirst o.params → ∀ j p, o.params[j]? = some p →
      (p.count = .once → taken bindings j = 1) ∧ (p.count = .oneOrMore → 1 ≤ taken bindings j) ∧
      ∀ regs : List Ir.Reg, regs.length = args.length → ∀ env s out s',
        Lowering.Lower.commandArgs o.params regs env s = .ok (out, s') →
          (p.count = .once → ∃ reg, regs[j]? = some reg ∧ out[j]? = some reg) ∧
          (p.count = .oneOrMore → regs.drop j ≠ [] ∧ out.drop (j + 1) = regs.drop j)) ∧
    (¬ RequiredFirst o.params → args.length = leastArity o.params →
      ∃ j p, o.params[j]? = some p ∧ p.isRequired = true ∧ taken bindings j = 0) := by
  obtain ⟨accepted, bound⟩ := Option.ite_none_right_eq_some.mp run
  obtain ⟨least, -⟩ := (Bool.and_eq_true _ _).mp accepted
  have last := declared.onlyLastRepeated
  have count {j : Nat} {p : Param} (isParam : o.params[j]? = some p) : taken bindings j =
      if p.count.isRepeated then args.length - j else if j < args.length then 1 else 0 := by
    have counted := taken_bindFrom last bound isParam
    rwa [Nat.zero_add] at counted
  refine ⟨fun j p isParam optional => ?_, fun ordered j p isParam => ?_, fun unordered short => ?_⟩
  · have counted := count isParam
    rw [optional, if_neg (by decide)] at counted
    split at counted <;> omega
  · have enough (required : p.isRequired = true) : j < args.length :=
      Nat.lt_of_lt_of_le (ordered.lt_leastArity isParam required) (of_decide_eq_true least)
    have counted := count isParam
    refine ⟨fun once => ?_, fun several => ?_,
      fun regs length env s out s' passed => ⟨fun once => ?_, fun several => ?_⟩⟩
    · have given := enough (by simp [Param.isRequired, once])
      simpa [once, Repeat.isRepeated, given] using counted
    · have given := enough (by simp [Param.isRequired, several])
      rw [several, if_pos (by decide)] at counted
      omega
    · have given := length ▸ enough (by simp [Param.isRequired, once])
      have same := Lowering.commandArgs_get last passed isParam given
      rw [once, if_neg (by decide)] at same
      exact ⟨regs[j], List.getElem?_eq_getElem given, same.trans (List.getElem?_eq_getElem given)⟩
    · have given := length ▸ enough (by simp [Param.isRequired, several])
      have same := Lowering.commandArgs_get last passed isParam given
      rw [several, if_pos (by decide)] at same
      exact ⟨by simpa using given, same⟩
  · by_contra all
    refine unordered (requiredFirst_of_lt fun j p isParam required => ?_)
    by_contra past
    refine all ⟨j, p, isParam, required, ?_⟩
    rw [count isParam, short]
    split <;> simp [Nat.sub_eq_zero_of_le (Nat.not_lt.mp past)]

/-- A string, perhaps a number, and any number of them. -/
def trailingOptions : List PatternMember := [⟨.builtin .string, .value, .once⟩, ⟨.builtin .int32, .value, .optional⟩,
  ⟨.builtin .int32, .value, .variadic⟩]

theorem trailingOptions_gives : ∃ bindings, parsePattern "X G L? L~" = .ok (⟨.builtin .void, .value, .once⟩ :: trailingOptions) ∧
    Overload.match? ⟨trailingOptions.map (·.toParam), .void, .command 0, Span.none⟩ [⟨.string, false⟩] = some bindings ∧
      taken bindings 0 = 1 := by
  have parsed : parsePattern "X G L? L~" = .ok (⟨.builtin .void, .value, .once⟩ :: trailingOptions) := by rfl
  have ordered : RequiredFirst (trailingOptions.map (·.toParam)) := by decide
  have bound : Overload.match? ⟨trailingOptions.map (·.toParam), .void, .command 0, Span.none⟩ [⟨.string, false⟩] =
      some [⟨0, .none⟩] := rfl
  refine ⟨[⟨0, .none⟩], parsed, bound, ?_⟩
  exact ((match_gives (.inl ⟨_, _, _, parsed, rfl⟩) bound).2.1 ordered 0 ⟨.string, .value, .once⟩ rfl).1 rfl

/-- An optional number before one that is not. -/
def leadingOption : List PatternMember := [⟨.builtin .int32, .value, .optional⟩, ⟨.builtin .int32, .value, .once⟩]

/-- A single argument goes to the parameter that may be left out, and none to the other. -/
theorem leadingOption_misses : parsePattern "X L? L" = .ok (⟨.builtin .void, .value, .once⟩ :: leadingOption) ∧
    ∃ bindings, Overload.match? ⟨leadingOption.map (·.toParam), .void, .command 0, Span.none⟩ [⟨.int32, false⟩] =
      some bindings ∧ leadingOption[1]?.map (·.count) = some .once ∧ taken bindings 1 = 0 :=
  ⟨by rfl, [⟨0, .none⟩], rfl, rfl, rfl⟩

end BasicCompiler
