/-
# The overload that a call means

An overload takes a call exactly if it accepts the number of arguments and each argument suits the parameter in its
place, the last parameter taking all that are left.
-/
import BasicCompiler.Proofs.Lowering.Arguments

namespace BasicCompiler

open List Option

/-! ## Matching -/

/-- What is written through has to be a place of exactly the parameter's type; anything else
has to convert to it. -/
def Param.Suits (p : Param) (a : Argument) : Prop :=
  if p.pass.needsLvalue then a.isLvalue = true ∧ a.type = p.type
  else a.type.conversion p.type .argument ≠ .invalid

def Param.passing (p : Param) (a : Argument) : Conversion :=
  if p.pass.needsLvalue then .none else a.type.conversion p.type .argument

theorem Param.accept?_eq_some {p : Param} : p.accept? a = some c ↔ p.Suits a ∧ p.passing a = c := by
  unfold accept? Suits passing
  split <;> simp [Conversion.isValid]

def HasRoom (params : List Param) (count : Nat) : Prop :=
  params.any (·.count.isRepeated) = false → count ≤ params.length

theorem hasRoom_of_acceptsArity {params : List Param} {count : Nat} (accepted : acceptsArity params count = true) :
    HasRoom params count := by
  intro none
  simp only [acceptsArity, greatestArity, none, Bool.and_eq_true] at accepted
  simpa using accepted.2

/-- Each argument suits the parameter in its place, and its binding names that parameter and
how the argument is passed for it; parameters are numbered from `index`. -/
structure Fits (index : Nat) (params : List Param) (args : List Argument) (bindings : List Binding) : Prop where
  length : bindings.length = args.length
  each : ∀ i a, args[i]? = some a → ∃ p, params[min i (params.length - 1)]? = some p ∧ p.Suits a ∧
    bindings[i]? = some ⟨index + min i (params.length - 1), p.passing a⟩

variable {params : List Param} {a : Argument} {args rest : List Argument} {bindings : List Binding}

/-- The parameters for the arguments behind the first: a repeated parameter stays. -/
def following (p : Param) (ps : List Param) : List Param := if p.count.isRepeated then p :: ps else ps

theorem hasRoom_following (room : HasRoom (p :: ps) (rest.length + 1)) : HasRoom (following p ps) rest.length := by
  unfold following
  split
  · next isRepeated => simp [HasRoom, isRepeated]
  · next single =>
    intro none
    have few := room (by simpa [single] using none)
    simpa using few

theorem onlyLastRepeated_following (last : OnlyLastRepeated (p :: ps)) : OnlyLastRepeated (following p ps) := by
  unfold following
  split
  · exact last
  · exact last.tail

theorem following_place (index : Nat) (last : OnlyLastRepeated (p :: ps)) (room : HasRoom (p :: ps) (rest.length + 1))
    (inside : i < rest.length) :
    (p :: ps)[min (i + 1) ps.length]? = (following p ps)[min i ((following p ps).length - 1)]? ∧
      index + min (i + 1) ps.length =
        (if p.count.isRepeated then index else index + 1) + min i ((following p ps).length - 1) := by
  unfold following
  split
  · next isRepeated =>
    obtain rfl := last.eq_nil isRepeated
    simp
  · next single =>
    cases ps with
    | nil =>
      have few := room (by simpa using single)
      simp only [length_cons, length_nil] at few
      omega
    | cons q qs =>
      have place : min (i + 1) (qs.length + 1) = min i qs.length + 1 := by omega
      simp only [length_cons, place, getElem?_cons_succ, Nat.add_sub_cancel, true_and]
      omega

theorem fits_cons (last : OnlyLastRepeated (p :: ps)) (room : HasRoom (p :: ps) (rest.length + 1)) :
    Fits index (p :: ps) (a :: rest) (b :: bindings) ↔ (p.Suits a ∧ b = ⟨index, p.passing a⟩) ∧
      Fits (if p.count.isRepeated then index else index + 1) (following p ps) rest bindings := by
  constructor
  · rintro ⟨length, each⟩
    refine ⟨by simpa using each 0 a rfl, Nat.succ.inj length, fun i a' found => ?_⟩
    obtain ⟨same, number⟩ := following_place index last room (List.getElem?_eq_some_iff.mp found).1
    rw [← same, ← number]
    exact each (i + 1) a' found
  · rintro ⟨first, length, each⟩
    refine ⟨congrArg (· + 1) length, fun i a' found => ?_⟩
    cases i with
    | zero =>
      cases found
      simpa using first
    | succ i =>
      have inside := Nat.lt_of_succ_lt_succ (List.getElem?_eq_some_iff.mp found).1
      obtain ⟨same, number⟩ := following_place index last room inside
      rw [List.length_cons, Nat.add_sub_cancel, same, number]
      exact each i a' found

theorem bindFrom_iff (last : OnlyLastRepeated params) (room : HasRoom params args.length) :
    bindFrom index params args = some bindings ↔ Fits index params args bindings := by
  induction args generalizing index params bindings with
  | nil =>
    refine ⟨fun run => ?_, fun fits => congrArg some (length_eq_zero_iff.mp fits.length).symm⟩
    cases run
    exact ⟨rfl, by simp⟩
  | cons a rest ih =>
    cases params with
    | nil =>
      refine iff_of_false (by simp [bindFrom]) fun fits => ?_
      obtain ⟨p, found, -⟩ := fits.each 0 a rfl
      cases found
    | cons p ps =>
      have later (others : List Binding) :
          bindFrom (if p.count.isRepeated then index else index + 1) (following p ps) rest = some others ↔
            Fits (if p.count.isRepeated then index else index + 1) (following p ps) rest others :=
        ih (onlyLastRepeated_following last) (hasRoom_following room)
      constructor
      · intro run
        obtain ⟨q, qs, c, others, same, rfl, accepted, bound⟩ := bindFrom_cons run
        cases same
        obtain ⟨suits, rfl⟩ := Param.accept?_eq_some.mp accepted
        refine (fits_cons last room).mpr ⟨⟨suits, rfl⟩, (later others).mp ?_⟩
        unfold following
        split at bound <;> simp_all
      · intro fits
        obtain ⟨b, others, rfl⟩ := exists_cons_of_length_eq_add_one fits.length
        obtain ⟨⟨suits, rfl⟩, fitOthers⟩ := (fits_cons last room).mp fits
        have bound := (later others).mpr fitOthers
        unfold following at bound
        simp only [bindFrom, Param.accept?_eq_some.mpr ⟨suits, rfl⟩, bind_eq_bind, bind_some]
        split at bound <;> simp_all

theorem Overload.match?_iff {o : Overload} (last : OnlyLastRepeated o.params) :
    o.match? args = some bindings ↔ acceptsArity o.params args.length = true ∧ Fits 0 o.params args bindings := by
  rw [match?, ite_none_right_eq_some]
  exact and_congr_right fun accepted => bindFrom_iff last (hasRoom_of_acceptsArity accepted)

/-- An overload takes the call: it accepts so many arguments, and each of them suits the
parameter in its place. -/
def Overload.Takes (o : Overload) (args : List Argument) : Prop :=
  acceptsArity o.params args.length = true ∧
    ∀ i a, args[i]? = some a → ∃ p, o.params[min i (o.params.length - 1)]? = some p ∧ p.Suits a

theorem Overload.match?_isSome {o : Overload} (last : OnlyLastRepeated o.params) :
    (o.match? args).isSome = true ↔ o.Takes args := by
  rw [isSome_iff_exists]
  constructor
  · rintro ⟨bindings, found⟩
    obtain ⟨accepted, fits⟩ := (match?_iff last).mp found
    exact ⟨accepted, fun i a isArg => (fits.each i a isArg).imp fun p => And.imp_right And.left⟩
  · rintro ⟨accepted, suit⟩
    refine ⟨args.mapIdx fun i a => ⟨0 + min i (o.params.length - 1),
      ((o.params[min i (o.params.length - 1)]?).map (·.passing a)).getD .none⟩,
      (match?_iff last).mpr ⟨accepted, by simp, fun i a isArg => ?_⟩⟩
    obtain ⟨p, isParam, suits⟩ := suit i a isArg
    exact ⟨p, isParam, suits, by simp [isArg, isParam]⟩

/-! ## Choosing -/

variable {overloads : List Overload} {o : Overload} {best : Option Resolution} {r : Resolution}

/-- The resolution is an overload that takes the call; none takes it at a lower cost, and
none before it at the same. -/
structure IsFirstCheapest (overloads : List Overload) (args : List Argument) (r : Resolution) : Prop where
  matched : ∃ o, overloads[r.index]? = some o ∧ o.match? args = some r.bindings
  cost : r.cost = bindingCost r.bindings
  least : ∀ (j : Nat) o bindings, overloads[j]? = some o → o.match? args = some bindings →
    r.cost ≤ bindingCost bindings ∧ (j < r.index → r.cost < bindingCost bindings)

def Found (seen : List Overload) (args : List Argument) : Option Resolution → Prop
  | none => ∀ o ∈ seen, o.match? args = none
  | some r => IsFirstCheapest seen args r

def bestOf (args : List Argument) (index : Nat) (best : Option Resolution) (o : Overload) : Option Resolution :=
  resolveFrom args index best [o]

theorem resolveFrom_cons (args : List Argument) (index : Nat) (best : Option Resolution) (o : Overload)
    (rest : List Overload) :
    resolveFrom args index best (o :: rest) = resolveFrom args (index + 1) (bestOf args index best o) rest := rfl

theorem bestOf_none (unmatched : o.match? args = none) : bestOf args index best o = best := by
  simp [bestOf, resolveFrom, unmatched]

theorem bestOf_first (matched : o.match? args = some bindings) :
    bestOf args index none o = some ⟨index, bindingCost bindings, bindings⟩ := by
  simp [bestOf, resolveFrom, matched]

theorem bestOf_next (matched : o.match? args = some bindings) : bestOf args index (some r) o =
    if bindingCost bindings < r.cost then some ⟨index, bindingCost bindings, bindings⟩ else some r := by
  simp [bestOf, resolveFrom, matched]

theorem getElem?_snoc (found : (seen ++ [o])[j]? = some o') : seen[j]? = some o' ∨ j = seen.length ∧ o = o' := by
  rcases Nat.lt_trichotomy j seen.length with lt | rfl | gt
  · exact .inl (by rwa [getElem?_append_left lt] at found)
  · exact .inr ⟨rfl, by simpa using found⟩
  · rw [getElem?_eq_none (by simp; omega)] at found
    cases found

theorem isFirstCheapest_last (matched : o.match? args = some bindings)
    (dearer : ∀ o' ∈ seen, ∀ bindings', o'.match? args = some bindings' → bindingCost bindings < bindingCost bindings') :
    IsFirstCheapest (seen ++ [o]) args ⟨seen.length, bindingCost bindings, bindings⟩ where
  matched := ⟨o, by simp, matched⟩
  cost := rfl
  least := by
    intro j o' bindings' found matched'
    rcases getElem?_snoc found with before | ⟨rfl, rfl⟩
    · have less := dearer o' (mem_of_getElem? before) bindings' matched'
      exact ⟨Nat.le_of_lt less, fun _ => less⟩
    · cases matched.symm.trans matched'
      exact ⟨Nat.le_refl _, fun lt => absurd lt (Nat.lt_irrefl _)⟩

theorem IsFirstCheapest.snoc (h : IsFirstCheapest seen args r)
    (dearer : ∀ bindings, o.match? args = some bindings → r.cost ≤ bindingCost bindings) :
    IsFirstCheapest (seen ++ [o]) args r := by
  obtain ⟨chosen, there, matched⟩ := h.matched
  have inside := (List.getElem?_eq_some_iff.mp there).1
  refine ⟨⟨chosen, by rwa [List.getElem?_append_left inside], matched⟩, h.cost, ?_⟩
  intro j o' bindings' found matched'
  rcases getElem?_snoc found with before | ⟨rfl, rfl⟩
  · exact h.least j o' bindings' before matched'
  · exact ⟨dearer bindings' matched', fun lt => absurd lt (by omega)⟩

theorem Found.step (found : Found seen args best) : Found (seen ++ [o]) args (bestOf args seen.length best o) := by
  cases matched : o.match? args with
  | none =>
    rw [bestOf_none matched]
    cases best with
    | none => exact forall_mem_append.mpr ⟨found, forall_mem_singleton.mpr matched⟩
    | some r => exact IsFirstCheapest.snoc found (by simp [matched])
  | some bindings =>
    cases best with
    | none =>
      rw [bestOf_first matched]
      exact isFirstCheapest_last matched fun o' before bindings' matched' => by simp [found o' before] at matched'
    | some r =>
      rw [bestOf_next matched]
      split
      · next cheaper =>
        refine isFirstCheapest_last matched fun o' before bindings' matched' => ?_
        obtain ⟨j, there⟩ := mem_iff_getElem?.mp before
        exact Nat.lt_of_lt_of_le cheaper (found.least j o' bindings' there matched').1
      · next dear =>
        refine IsFirstCheapest.snoc found fun bindings' matched' => ?_
        cases matched.symm.trans matched'
        exact Nat.not_lt.mp dear

theorem Found.run {rest : List Overload} (found : Found seen args best) :
    Found (seen ++ rest) args (resolveFrom args seen.length best rest) := by
  induction rest generalizing seen best with
  | nil => rwa [append_nil]
  | cons o rest ih =>
    have further := ih (found.step (o := o))
    rw [append_assoc, length_append] at further
    exact further

theorem found_resolve (overloads : List Overload) (args : List Argument) :
    Found overloads args (resolve overloads args) :=
  have nothing : Found [] args none := by simp [Found]
  nothing.run

theorem resolve_snoc (overloads : List Overload) (o : Overload) (args : List Argument) :
    resolve (overloads ++ [o]) args = bestOf args overloads.length (resolve overloads args) o := by
  have further (best : Option Resolution) (index : Nat) : resolveFrom args index best (overloads ++ [o]) =
      bestOf args (index + overloads.length) (resolveFrom args index best overloads) o := by
    induction overloads generalizing best index with
    | nil => rfl
    | cons first rest ih =>
      rw [cons_append, resolveFrom_cons, ih, resolveFrom_cons, length_cons]
      congr 1
      omega
  rw [resolve, further, Nat.zero_add, resolve]

theorem cheaper_of_resolve_snoc (changed : resolve (overloads ++ [o]) args ≠ resolve overloads args) :
    ∃ bindings, o.match? args = some bindings ∧ ∀ o' ∈ overloads, ∀ bindings',
      o'.match? args = some bindings' → bindingCost bindings < bindingCost bindings' := by
  rw [resolve_snoc] at changed
  have found := found_resolve overloads args
  cases matched : o.match? args with
  | none => exact absurd (bestOf_none matched) changed
  | some bindings =>
    refine ⟨bindings, rfl, fun o' mem bindings' matched' => ?_⟩
    cases best : resolve overloads args with
    | none =>
      rw [best] at found
      simp [found o' mem] at matched'
    | some r =>
      rw [best] at found changed
      rw [bestOf_next matched] at changed
      obtain ⟨j, there⟩ := mem_iff_getElem?.mp mem
      have least := (found.least j o' bindings' there matched').1
      split at changed
      · omega
      · exact absurd rfl changed

/-- Where only last parameters are repeated, an overload matches exactly if it takes the
call, and its bindings are the arguments in their places; resolution gives the first of the
cheapest matching overloads, or nothing if none matches; and one more overload changes the
result only if it takes the call at a lower cost than all others. -/
theorem resolve_isFirstCheapest {overloads : List Overload} (args : List Argument)
    (last : ∀ o ∈ overloads, OnlyLastRepeated o.params) :
    (∀ o ∈ overloads, ((o.match? args).isSome = true ↔ o.Takes args) ∧
      ∀ bindings, o.match? args = some bindings → Fits 0 o.params args bindings) ∧
    (resolve overloads args = none ↔ ∀ o ∈ overloads, ¬ o.Takes args) ∧
    (∀ r, resolve overloads args = some r → IsFirstCheapest overloads args r) ∧
    ∀ o, OnlyLastRepeated o.params → resolve (overloads ++ [o]) args ≠ resolve overloads args →
      o.Takes args ∧ ∃ bindings, o.match? args = some bindings ∧ ∀ o' ∈ overloads, ∀ bindings',
        o'.match? args = some bindings' → bindingCost bindings < bindingCost bindings' := by
  have found := found_resolve overloads args
  refine ⟨fun o mem => ⟨Overload.match?_isSome (last o mem), fun bindings matched => ?_⟩, ?_, fun r chosen => ?_,
    fun o lastToo changed => ?_⟩
  · exact ((Overload.match?_iff (last o mem)).mp matched).2
  · cases best : resolve overloads args with
    | none =>
      rw [best] at found
      refine iff_of_true rfl fun o mem takes => ?_
      simp [← Overload.match?_isSome (last o mem), found o mem] at takes
    | some r =>
      rw [best] at found
      obtain ⟨o, there, matched⟩ := found.matched
      have mem := List.mem_of_getElem? there
      refine iff_of_false (by simp) fun none => none o mem ?_
      rw [← Overload.match?_isSome (last o mem), matched, Option.isSome_some]
  · rwa [chosen] at found
  · obtain ⟨bindings, matched, cheaper⟩ := cheaper_of_resolve_snoc changed
    exact ⟨(Overload.match?_isSome lastToo).mp (by rw [matched, Option.isSome_some]), bindings, matched, cheaper⟩

/-- A float, any number of integers, and two integers. -/
def rivalOverloads : List Overload :=
  [[⟨.builtin .float64, .value, .once⟩], [⟨.int32, .value, .variadic⟩],
    [⟨.int32, .value, .once⟩, ⟨.int32, .value, .once⟩]].map (⟨·, .void, .command 0, Span.none⟩)

/-- A byte and an integer cost one conversion both as any number of integers and as two. -/
theorem rivalOverloads_firstCheapest :
    (∀ o ∈ rivalOverloads, OnlyLastRepeated o.params) ∧
      IsFirstCheapest rivalOverloads [⟨.builtin .int8, false⟩, ⟨.int32, false⟩]
        ⟨1, 1, [⟨0, .extend⟩, ⟨0, .none⟩]⟩ := by
  have last : ∀ o ∈ rivalOverloads, OnlyLastRepeated o.params := by
    simp [rivalOverloads, OnlyLastRepeated, Repeat.isRepeated]
  exact ⟨last, (resolve_isFirstCheapest _ last).2.2.1 _ rfl⟩

end BasicCompiler
