/-
# Which of several signatures a call means

An overload takes a call if it accepts the number of arguments and every argument converts to its parameter; what is
written through must be a place of exactly the parameter's type.
-/
import BasicCompiler.Text.Span
import BasicCompiler.Types.Conversion
import BasicCompiler.Types.Pattern

namespace BasicCompiler

/-- What a call runs: a function of the program or a command, each by its number. -/
inductive Callee where
  | function (id : Nat)
  | command (index : Nat)
deriving DecidableEq

structure Param where
  type : Ty
  pass : PassBy
  count : Repeat

def PatternMember.toParam (m : PatternMember) : Param := ⟨m.type.toTy, m.pass, m.count⟩

structure Overload where
  params : List Param
  result : Ty
  callee : Callee
  span : Span

/-- An argument as far as resolution asks. -/
structure Argument where
  type : Ty
  isLvalue : Bool

/-- The parameter that an argument goes to, and the conversion it needs. -/
structure Binding where
  param : Nat
  conversion : Conversion
deriving DecidableEq

def leastArity (params : List Param) : Nat :=
  (params.filter fun p => p.count = .once || p.count = .oneOrMore).length

/-- The greatest number of arguments; nothing if there is no limit. -/
def greatestArity (params : List Param) : Option Nat :=
  if params.any (·.count.isRepeated) then none else some params.length

def acceptsArity (params : List Param) (arity : Nat) : Bool :=
  leastArity params ≤ arity && (greatestArity params).all (arity ≤ ·)

/-- The conversion an argument needs for a parameter; nothing if it cannot be passed. -/
def Param.accept? (p : Param) (a : Argument) : Option Conversion :=
  if p.pass.needsLvalue then
    if a.isLvalue && a.type = p.type then some .none else none
  else
    let c := a.type.conversion p.type .argument
    if c.isValid then some c else none

/-- Binds arguments to parameters in order, the first parameter having the number
`index`. A repeated parameter keeps taking arguments. -/
def bindFrom (index : Nat) (params : List Param) : List Argument → Option (List Binding)
  | [] => some []
  | a :: rest =>
      match params with
      | [] => none
      | p :: ps => do
          let c ← p.accept? a
          let bindings ←
            if p.count.isRepeated then bindFrom index (p :: ps) rest
            else bindFrom (index + 1) ps rest
          some (⟨index, c⟩ :: bindings)

/-- How the arguments of a call bind to an overload; nothing if they do not. -/
def Overload.match? (o : Overload) (args : List Argument) : Option (List Binding) :=
  if acceptsArity o.params args.length then bindFrom 0 o.params args else none

structure Resolution where
  index : Nat
  /-- Number of arguments that have to be converted. -/
  cost : Nat
  bindings : List Binding

def bindingCost (bindings : List Binding) : Nat :=
  (bindings.filter (·.conversion.isCostly)).length

/-- Goes on from the best overload so far; the next one has the number `index`. -/
def resolveFrom (args : List Argument) (index : Nat) (best : Option Resolution) :
    List Overload → Option Resolution
  | [] => best
  | o :: rest =>
      let best :=
        match o.match? args, best with
        | none, best => best
        | some bindings, none => some ⟨index, bindingCost bindings, bindings⟩
        | some bindings, some b =>
            if bindingCost bindings < b.cost then some ⟨index, bindingCost bindings, bindings⟩
            else some b
      resolveFrom args (index + 1) best rest

def resolve (overloads : List Overload) (args : List Argument) : Option Resolution :=
  resolveFrom args 0 none overloads

end BasicCompiler
