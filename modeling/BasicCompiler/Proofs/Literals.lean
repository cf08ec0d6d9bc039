/-
# Literals that are stored

A literal gets the first of four types that holds it. It is negated in that type and then converted to the type of the
variable. What is stored is followed from the text to the code: `compile_literal`. The negative of a number that only
uint32 holds is lost on the way.
-/
import BasicCompiler.Compiler
import BasicCompiler.Proofs.Ir.Words
import BasicCompiler.Proofs.Token.Integers
import BasicCompiler.Proofs.Typed.Programs

namespace BasicCompiler

open List TokenStream

/-! ## Reading the text -/

/-- Behind the first token of a line and what is implied there. -/
def LineState.inside : LineState := ⟨false, none, 0, false⟩

theorem scanFrom_token {span : Span} (is : scanStep pos c rest line = Step.token extent line' kind text span) :
    scanFrom pos (c :: rest) line [] = (scanFrom (pos + byteLength (c :: rest.take extent)) (rest.drop extent)
      (Step.token extent line' kind text span).line []).prepend
        (withFaults [] (Step.token extent line' kind text span).tokens) := by
  rw [scanFrom, is]
  rfl

theorem scanFrom_blank (pos : Nat) : scanFrom pos (' ' :: rest) line [] = scanFrom (pos + 1) rest line [] := by
  rw [scanFrom]
  rfl

theorem scanStep_wordToken (word : List Char) (text : String) (keyword : Option Keyword) (pos : Nat) (line : LineState)
    (tail : List Char) (plain : isNameStart c = true ∧ word.takeWhile isNameChar = word ∧
      fold (String.ofList (c :: word)) ≠ "rem" ∧ fold (String.ofList (c :: word)) ≠ "remstart")
    (is : String.ofList (c :: word) = text ∧ Keyword.ofWord? text = keyword ∧ keyword ≠ some .kwThen) :
    scanStep pos c (word ++ ' ' :: tail) line = Step.token word.length (line.openedBy (wordOpener keyword))
      (wordKind keyword) text ⟨pos, pos + byteLength (c :: word)⟩ := by
  obtain ⟨rfl, rfl, noThen⟩ := is
  rw [scanStep_word c word plain (.cons (.inl rfl)), wordStep_token noThen]

/-- The tokens of a declaration of `x` up to its value. -/
def opening : List Lexeme :=
  [⟨[], ⟨.ident, "x", ⟨0, 1⟩, true, false⟩⟩, ⟨[], ⟨.keyword .kwAs, "as", ⟨2, 4⟩, false, false⟩⟩,
    ⟨[], ⟨.ident, "int64", ⟨5, 10⟩, false, false⟩⟩, ⟨[], ⟨.punct .eq, "=", ⟨11, 12⟩, false, false⟩⟩]

theorem scanFrom_digits (pos : Nat) (first : isDigit c = true) (all : ∀ d ∈ digits, isDigit d = true)
    (below : digitsValue 10 (c :: digits) = value.toNat) :
    scanFrom pos (c :: digits) .inside [] = ⟨[⟨[], ⟨.literal (.int value), String.ofList (c :: digits),
      ⟨pos, pos + byteLength (c :: digits)⟩, false, false⟩⟩], ⟨[], Token.endOfInput (pos + byteLength (c :: digits))⟩⟩ := by
  have each : ∀ d ∈ c :: digits, Radix.decimal.isDigit d = true := forall_mem_cons.mpr ⟨first, all⟩
  let n : WrittenInteger := ⟨.decimal, [], c :: digits, [], by decide, cons_ne_nil _ _, each, by decide⟩
  have denotes : n.value = value.toNat := (digitsValue_eq_ofDigits 10 (c :: digits)).symm.trans below
  have text : n.text = c :: digits := append_nil _
  have ends : n.EndsBefore [] := ⟨by simp, by simp⟩
  have scanned := scanFrom_integer ends pos .inside []
  rw [denotes, if_pos value.toNat_lt_size, append_nil, text, UInt64.ofNat_toNat, scanFrom] at scanned
  exact scanned

theorem scanFrom_opening (tail : List Char) :
    scanFrom 0 ("x as int64 = ".toList ++ tail) .start [] = (scanFrom 13 tail .inside []).prepend opening := by
  have x (t : List Char) : scanFrom 0 ('x' :: ' ' :: t) .start [] = (scanFrom 1 (' ' :: t) ⟨false, none, 0, true⟩ []).prepend
      [⟨[], ⟨.ident, "x", ⟨0, 1⟩, true, false⟩⟩] :=
    scanFrom_token (scanStep_wordToken [] "x" none 0 .start t (by decide) (by decide))
  have asWord (t : List Char) : scanFrom 2 ('a' :: 's' :: ' ' :: t) ⟨false, none, 0, true⟩ [] =
      (scanFrom 4 (' ' :: t) .inside []).prepend [⟨[], ⟨.keyword .kwAs, "as", ⟨2, 4⟩, false, false⟩⟩] :=
    scanFrom_token (scanStep_wordToken ['s'] "as" (some .kwAs) 2 _ t (by decide) (by decide))
  have type (t : List Char) : scanFrom 5 ('i' :: 'n' :: 't' :: '6' :: '4' :: ' ' :: t) .inside [] =
      (scanFrom 10 (' ' :: t) .inside []).prepend [⟨[], ⟨.ident, "int64", ⟨5, 10⟩, false, false⟩⟩] :=
    scanFrom_token (scanStep_wordToken ['n', 't', '6', '4'] "int64" none 5 _ t (by decide) (by decide))
  have sign (t : List Char) : scanFrom 11 ('=' :: ' ' :: t) .inside [] =
      (scanFrom 12 (' ' :: t) .inside []).prepend [⟨[], ⟨.punct .eq, "=", ⟨11, 12⟩, false, false⟩⟩] := by
    have step : scanStep 11 '=' (' ' :: t) .inside = Step.token 0 .inside (.punct .eq) "=" ⟨11, 12⟩ := rfl
    exact scanFrom_token step
  change scanFrom 0 ('x' :: ' ' :: 'a' :: 's' :: ' ' :: 'i' :: 'n' :: 't' :: '6' :: '4' :: ' ' :: '=' :: ' ' :: tail)
    .start [] = _
  rw [x, scanFrom_blank, asWord, scanFrom_blank, type, scanFrom_blank, sign, scanFrom_blank]
  rfl

theorem scanFrom_minus (pos : Nat) (first : isDigit c = true) (tail : List Char) :
    scanFrom pos ('-' :: c :: tail) .inside [] = (scanFrom (pos + 1) (c :: tail) .inside []).prepend
      [⟨[], ⟨.punct .minus, "-", ⟨pos, pos + 1⟩, false, false⟩⟩] := by
  have other : c ≠ '=' := by
    rintro rfl
    cases first
  have step : scanStep pos '-' (c :: tail) .inside = Step.token 0 .inside (.punct .minus) "-" ⟨pos, pos + 1⟩ := by
    have sign : sign? '-' (c :: tail) = some .minus := by
      unfold sign?
      split <;> simp_all
    change signStep pos '-' (c :: tail) _ = _
    rw [signStep, sign]
    rfl
  exact scanFrom_token step

/-! ## Decimal digits -/

theorem isDigit_of_toDigits (mem : d ∈ Nat.toDigits 10 n) : isDigit d = true := by
  have digit := Nat.isDigit_of_mem_toDigits (by decide) (by decide) mem
  simpa [isDigit, Char.isDigit, Char.le_def, UInt32.le_iff_toNat_le] using digit

theorem digitsValue_toDigits (n : Nat) : digitsValue 10 (Nat.toDigits 10 n) = n := by
  have same : digitsValue 10 (Nat.toDigits 10 n) = Nat.ofDigitChars 10 (Nat.toDigits 10 n) 0 := by
    refine foldl_ext _ _ _ fun value d mem => ?_
    rw [digitValue, if_pos (isDigit_of_toDigits mem), Nat.mul_comm]
  rw [same, Nat.ofDigitChars_ten_toDigits]

namespace Typed

open Check

/-! ## The check -/

def ofX (init : Source.Expr) : Source.VarDecl :=
  ⟨.automatic, ⟨"x", ⟨0, 1⟩⟩, some ⟨⟨"int64", ⟨5, 10⟩⟩, false, ⟨5, 10⟩⟩, none, some init⟩

/-- A declaration of `x` with a first value. -/
def declaring (span : Span) (init : Source.Expr) : Source.Program := ⟨[], [], [.declare span (ofX init)]⟩

def scopesOfX (scopes : ScopeTree SymbolKind) : ScopeTree SymbolKind :=
  scopes.insert ⟨"x", ⟨0, 1⟩, ScopeTree.root, .variable ⟨.builtin .int64, .global⟩⟩

/-- The scopes with `x` and a scope for the main program. -/
def scopesWith (scopes : ScopeTree SymbolKind) : ScopeTree SymbolKind :=
  ((scopesOfX scopes).push ScopeTree.root none).2

/-- The program that is made of it. -/
def declared (ctx : Context) (scopes : ScopeTree SymbolKind) (commands : List Command) (span : Span) (e : Expr) :
    Program where
  scopes := scopesWith scopes
  types := .empty ctx.pointer ctx.memberAlign
  commands := commands
  globals := [scopes.symbols.length]
  functions := []
  main := ⟨"main", "main", none, [], .void, [], [], (scopesOfX scopes).scopes.length,
    .mk (span.join span) [.declare span scopes.symbols.length none (some e)], none, span.join span⟩

variable {ctx : Context} {s : CheckState} {init : Source.Expr} {e : Expr}

theorem run_bind {α β : Type} {m : Check α} {f : α → Check β} {a : α} (run : m s = .ok (a, s')) :
    (m >>= f) s = f a s' := by
  change (m s >>= fun p => f p.1 p.2) = _
  rw [run]
  rfl

theorem get?_scopesWith (scopes : ScopeTree SymbolKind) : (scopesWith scopes).get? scopes.symbols.length =
    some ⟨"x", ⟨0, 1⟩, ScopeTree.root, .variable ⟨.builtin .int64, .global⟩⟩ := by
  change (scopes.symbols ++ [_])[scopes.symbols.length]? = _
  rw [getElem?_concat_length]

def CheckState.withX (ctx : Context) (scopes : ScopeTree SymbolKind) (commands : List Command) : CheckState where
  scopes := scopesWith scopes
  types := .empty ctx.pointer ctx.memberAlign
  commands := commands
  globals := [scopes.symbols.length]
  predeclared := [(⟨0, 1⟩, scopes.symbols.length)]
  signatures := []
  body := Body.start (scopesOfX scopes).scopes.length none
  reports := []

theorem stmts_declaring (scopes : ScopeTree SymbolKind) (cs : List Command)
    (checked : ∀ analyse s, exprAs analyse (.builtin .int64) init s = .ok (e, s)) (span : Span)
    (analyse : FunctionId → Check Unit) :
    stmts analyse (declaring span init).stmts (.withX ctx scopes cs) =
      .ok ([.declare span scopes.symbols.length none (some e)], .withX ctx scopes cs) := by
  have declared : declaredVariable (ofX init) (.withX ctx scopes cs) =
      .ok (scopes.symbols.length, .withX ctx scopes cs) := rfl
  have kind : symbolKind scopes.symbols.length (.withX ctx scopes cs) =
      .ok (some (.variable ⟨.builtin .int64, .global⟩), .withX ctx scopes cs) := by
    unfold symbolKind
    rw [CheckState.withX, get?_scopesWith]
    rfl
  have value : optional (exprAs analyse (.builtin .int64)) (some init) (.withX ctx scopes cs) =
      .ok (some e, .withX ctx scopes cs) := by
    change (exprAs analyse (.builtin .int64) init >>= fun e => pure (some e)) _ = _
    rw [run_bind (checked _ _)]
    rfl
  change (declaration analyse _ span >>= fun st => pure [] >>= fun rest => pure (st :: rest)) _ = _
  have whole : declaration analyse (ofX init) span (.withX ctx scopes cs) =
      .ok (.declare span scopes.symbols.length none (some e), .withX ctx scopes cs) := by
    unfold declaration
    rw [run_bind declared, run_bind kind]
    change (pure none >>= fun dim => optional (exprAs analyse (.builtin .int64)) (some init) >>= fun init =>
      pure (Stmt.declare span scopes.symbols.length dim init)) _ = _
    rw [run_bind rfl, run_bind value]
    rfl
  rw [run_bind whole]
  rfl

theorem check_declaring (commands : commandsFrom 0 ctx.commands (.start ctx.pointer ctx.memberAlign) = .ok ((), s))
    (free : s.scopes.findHere ScopeTree.root "x" = none)
    (checked : ∀ analyse s, exprAs analyse (.builtin .int64) init s = .ok (e, s)) (span : Span) :
    check ctx (declaring span init) = .ok (declared ctx s.scopes s.commands span e) := by
  obtain ⟨-, same, -⟩ := (CheckState.start_declared [] ctx.pointer ctx.memberAlign).commandsFrom rfl commands
  generalize s.scopes = scopes at same free ⊢
  generalize s.commands = cs at same ⊢
  obtain rfl : s = ⟨scopes, .empty ctx.pointer ctx.memberAlign, cs, [], [], [], .start ScopeTree.root none, []⟩ := same
  let x : Symbol SymbolKind := ⟨"x", ⟨0, 1⟩, ScopeTree.root, .variable ⟨.builtin .int64, .global⟩⟩
  have symbol : addSymbol ScopeTree.root ⟨"x", ⟨0, 1⟩⟩ x.kind
      ⟨scopes, .empty ctx.pointer ctx.memberAlign, cs, [], [], [], .start ScopeTree.root none, []⟩ = .ok (scopes.symbols.length,
        ⟨scopes.insert x, .empty ctx.pointer ctx.memberAlign, cs, [], [], [],
          .start ScopeTree.root none, []⟩) := by
    simp only [addSymbol, ScopeTree.add, free]
    rfl
  have globals : globals (programGlobals (declaring span init))
      ⟨scopes, .empty ctx.pointer ctx.memberAlign, cs, [], [], [], .start ScopeTree.root none, []⟩ =
      .ok ((), ⟨scopes.insert x, .empty ctx.pointer ctx.memberAlign, cs,
        [scopes.symbols.length], [(⟨0, 1⟩, scopes.symbols.length)], [], .start ScopeTree.root none, []⟩) := by
    change ((addSymbol ScopeTree.root ⟨"x", ⟨0, 1⟩⟩ x.kind >>= fun symbol => modify fun s =>
      { s with globals := s.globals ++ [symbol], predeclared := s.predeclared ++ [(⟨0, 1⟩, symbol)] }) >>= fun _ => pure ())
        _ = _
    rw [bind_assoc, run_bind symbol]
    rfl
  have run : program ctx (declaring span init) (.start ctx.pointer ctx.memberAlign) =
      .ok (declared ctx scopes cs span e, .withX ctx scopes cs) := by
    have body := @stmts_declaring ctx init e scopes cs checked span (function [] 0)
    unfold program
    rw [run_bind commands, run_bind rfl, run_bind rfl, run_bind globals, run_bind rfl]
    unfold mainProgram
    rw [bind_assoc, run_bind rfl, bind_assoc, run_bind rfl, bind_assoc, run_bind rfl, bind_assoc]
    change (stmts (function [] 0) (declaring span init).stmts >>= _) (.withX ctx scopes cs) = _
    rw [run_bind body]
    rfl
  change (program ctx (declaring span init) (.start ctx.pointer ctx.memberAlign) >>= _) = _
  rw [run]
  rfl

/-! ## The value -/

variable {value : UInt64}

theorem expr_literal (type : intLiteralType value = t) (place : Span) (analyse : FunctionId → Check Unit) (s : CheckState) :
    expr analyse (.literal place (.token (.int value))) s = .ok (.const ⟨.builtin t, place⟩ (.int value), s) := by
  rw [← type]
  rfl

theorem expr_negated (type : intLiteralType value = t) (integer : operandAllowed .neg (.builtin t) = true)
    (span sign place : Span) (analyse : FunctionId → Check Unit) (s : CheckState) :
    expr analyse (.unary span ⟨.neg, sign⟩ (.literal place (.token (.int value)))) s =
      .ok (.unary ⟨.builtin t, span⟩ .neg (.const ⟨.builtin t, place⟩ (.int value)), s) := by
  change (expr analyse (.literal place (.token (.int value))) >>= fun e => rule fun types =>
    typeUnary types ⟨.neg, sign⟩ e span) s = _
  rw [run_bind (expr_literal type place analyse s)]
  simp only [rule, typeUnary, Expr.ty, Expr.info, integer]
  rfl

end Typed

namespace Lowering

open Typed Lower

variable {ctx : Context} {scopes : ScopeTree SymbolKind} {span : Span} {e : Typed.Expr}

theorem runs_bind {α β : Type} {m : Lower α} {f : α → Lower β} {a : α} (run : m env s = .ok (a, s')) :
    (m >>= f) env s = f a env s' := by
  change (m env s >>= fun p => f p.1 env p.2) = _
  rw [run]
  rfl

def mainEnv (p : Typed.Program) : Env := startEnv p p.main true

/-- The main program with the address of `x`. -/
def atX (b : Ir.Builder) : LowerState :=
  ⟨((b.startFunction "main" [] .i32).2.emit (.global "g.x")).2, CleanupStack.empty.pushFrame.pushFrame⟩

def afterX (b : Ir.Builder) (ops : List Ir.Op) : LowerState := { atX b with builder := (atX b).builder.emitAll ops }

/-- The code of the main program, in which `ops` are the instructions of the value. -/
def mainInstrs (ops : List Ir.Op) (r : Ir.Reg) : List Ir.Instr :=
  [⟨some 0, .global "g.x"⟩] ++ Ir.numbered 1 ops ++ [⟨none, .store 0 r⟩] ++
    [⟨some (1 + ops.length), .const (.int 0) .i32⟩]

theorem ends_afterX (b : Ir.Builder) (ops : List Ir.Op) (r : Ir.Reg) (p : Typed.Program) :
    ∃ s, (do storeValue 0 r (.builtin .int64); closeFrame; endOfFunction none : Lower Unit) (mainEnv p) (afterX b ops) =
        .ok ((), s) ∧ s.builder.finishFunction.finish = { b.finishFunction.module with
          functions := b.finishFunction.module.functions ++ [.defined "main" [] .i32 [⟨0, some "entry", mainInstrs ops r,
            some (.ret (some (1 + ops.length)))⟩]] } := by
  unfold afterX
  rw [Ir.Builder.emitAll_eq]
  exact ⟨_, rfl, rfl⟩

theorem lower_declared {r : Ir.Reg} {ops : List Ir.Op} (name : String)
    (code : ∀ b, expr .value e (mainEnv (declared ctx scopes cs span e)) (atX b) = .ok (r, afterX b ops)) :
    ∃ m : Ir.Module, lower (declared ctx scopes cs span e) name = .ok m ∧ m.functions.getLast? =
      some (.defined "main" [] .i32 [⟨0, some "entry", mainInstrs ops r, some (.ret (some (1 + ops.length)))⟩]) := by
  let p := declared ctx scopes cs span e
  obtain ⟨s', ends, finished⟩ := ends_afterX (declareAll p name) ops r p
  refine ⟨s'.builder.finishFunction.finish, ?_, by rw [finished, getLast?_concat]⟩
  have all : emitFunctions p (declareAll p name) [(p.main, true)] = (s'.builder.finishFunction, []) := by
    have code := code (declareAll p name)
    generalize declareAll p name = b at ends code ⊢
    have found := get?_scopesWith scopes
    have isVariable : (mainEnv p).program.asVariable? scopes.symbols.length = some ⟨.builtin .int64, .global⟩ := by
      change ((scopesWith scopes).get? scopes.symbols.length).bind _ = _
      rw [found]
      rfl
    have address : varAddress scopes.symbols.length (mainEnv p)
        ⟨(b.startFunction "main" [] .i32).2, CleanupStack.empty.pushFrame.pushFrame⟩ = .ok (0, atX b) := by
      have here : (mainEnv p).program.scopes.get? scopes.symbols.length = _ := found
      unfold varAddress
      rw [runs_bind rfl, here]
      rfl
    have stored : declaration span scopes.symbols.length none (some e) (mainEnv p)
        ⟨(b.startFunction "main" [] .i32).2, CleanupStack.empty.pushFrame.pushFrame⟩ =
        storeValue 0 r (.builtin .int64) (mainEnv p) (afterX b ops) := by
      unfold declaration
      rw [runs_bind rfl]
      dsimp only
      rw [isVariable]
      dsimp only
      rw [runs_bind address, runs_bind code]
    have body : functionBody p.main [] [] (mainEnv p) ⟨(b.startFunction "main" [] .i32).2, CleanupStack.empty⟩ =
        .ok ((), s') := by
      unfold functionBody
      rw [runs_bind rfl, runs_bind rfl, runs_bind rfl, runs_bind rfl]
      change ((changeCleanups (·.pushFrame) >>= fun _ => (declaration span scopes.symbols.length none (some e) >>= fun _ =>
        pure ()) >>= fun a => closeFrame >>= fun _ => pure a) >>= fun _ => endOfFunction none) (mainEnv p) _ = _
      simp only [bind_assoc, pure_bind]
      rw [runs_bind rfl]
      change (declaration span scopes.symbols.length none (some e) (mainEnv p)
        ⟨(b.startFunction "main" [] .i32).2, CleanupStack.empty.pushFrame.pushFrame⟩ >>= fun p => _) = _
      rw [stored]
      exact ends
    have emitted : emitFunction p b p.main true = .ok s'.builder.finishFunction := by
      change ((functionBody p.main [] [] (mainEnv p) ⟨(b.startFunction "main" [] .i32).2, CleanupStack.empty⟩ >>= fun p =>
        pure p.2) >>= fun s => pure s.builder.finishFunction) = _
      rw [body]
      rfl
    rw [emitFunctions, emitted]
    rfl
  change emitFunctions p (declareAll p name) (p.functions.map (·, false) ++ [(p.main, true)]) = _ at all
  change lower p name = _
  unfold lower
  dsimp only
  rw [all]

/-! ## What is stored -/

/-- A value of `x` whose check succeeds anywhere, with the code of what it is checked to. -/
def Valued (init : Source.Expr) (ops : List Ir.Op) (r : Ir.Reg) : Prop :=
  ∃ e, (∀ analyse s, Check.exprAs analyse (.builtin .int64) init s = .ok (e, s)) ∧
    ∀ ctx scopes cs span b, expr .value e (mainEnv (declared ctx scopes cs span e)) (atX b) = .ok (r, afterX b ops)

def literalExpr (negated : Bool) (span sign place : Span) (value : UInt64) : Source.Expr :=
  if negated then .unary span ⟨.neg, sign⟩ (.literal place (.token (.int value)))
  else .literal place (.token (.int value))

/-- The bits that are stored for a literal of a type: it is negated in its own width. -/
def storedBits (negated : Bool) (t : BuiltinType) (v : Nat) : BitVec 64 :=
  match t with
  | .int32 => (if negated then -BitVec.ofNat 32 v else .ofNat 32 v).signExtend 64
  | .uint32 => (if negated then -BitVec.ofNat 32 v else .ofNat 32 v).setWidth 64
  | _ => if negated then -BitVec.ofNat 64 v else .ofNat 64 v

theorem ofInt_toInt64 (value : UInt64) (narrow : w ≤ 64) :
    BitVec.ofInt w value.toInt64.toInt = .ofNat w value.toNat := by
  apply BitVec.eq_of_toInt_eq
  change (BitVec.ofInt w value.toBitVec.toInt).toInt = _
  rw [BitVec.toInt_ofInt, BitVec.toInt_eq_toNat_bmod, ← BitVec.ofInt_natCast, BitVec.toInt_ofInt]
  exact Int.bmod_bmod_of_dvd (Nat.pow_dvd_pow 2 narrow)

theorem intLiteralType_cases (value : UInt64) :
    value.toNat < 2 ^ 31 ∧ intLiteralType value = .int32 ∨
      (2 ^ 31 ≤ value.toNat ∧ value.toNat < 2 ^ 32) ∧ intLiteralType value = .uint32 ∨
      (2 ^ 32 ≤ value.toNat ∧ value.toNat < 2 ^ 63) ∧ intLiteralType value = .int64 ∨
      2 ^ 63 ≤ value.toNat ∧ intLiteralType value = .uint64 := by
  unfold intLiteralType
  have small : value < 0x80000000 ↔ value.toNat < 2 ^ 31 := UInt64.lt_iff_toNat_lt
  have middle : value < 0x100000000 ↔ value.toNat < 2 ^ 32 := UInt64.lt_iff_toNat_lt
  have large : value < 0x8000000000000000 ↔ value.toNat < 2 ^ 63 := UInt64.lt_iff_toNat_lt
  simp only [small, middle, large]
  by_cases h1 : value.toNat < 2 ^ 31
  · exact .inl ⟨h1, if_pos h1⟩
  by_cases h2 : value.toNat < 2 ^ 32
  · exact .inr (.inl ⟨⟨Nat.le_of_not_lt h1, h2⟩, by rw [if_neg h1, if_pos h2]⟩)
  by_cases h3 : value.toNat < 2 ^ 63
  · exact .inr (.inr (.inl ⟨⟨Nat.le_of_not_lt h2, h3⟩, by rw [if_neg h1, if_neg h2, if_pos h3]⟩))
  · exact .inr (.inr (.inr ⟨Nat.le_of_not_lt h3, by rw [if_neg h1, if_neg h2, if_neg h3]⟩))

theorem literalExpr_valued (negated : Bool) (value : UInt64) (span sign place : Span) :
    ∃ ops r, Valued (literalExpr negated span sign place value) ops r ∧ Ir.held? (mainInstrs ops r) "g.x" =
      some ⟨64, storedBits negated (intLiteralType value) value.toNat⟩ := by
  have narrow := ofInt_toInt64 (w := 32) value (by decide)
  have wide := ofInt_toInt64 (w := 64) value (by decide)
  -- the value converted to the type of `x`
  have coerced {inner : Source.Expr} {e e' : Typed.Expr} (checked : ∀ analyse s, Check.expr analyse inner s = .ok (e, s))
      (converted : ∀ types, coerce types e (.builtin .int64) .implicit = .ok e') (analyse : FunctionId → Check Unit)
      (s : CheckState) : Check.exprAs analyse (.builtin .int64) inner s = .ok (e', s) := by
    change (Check.expr analyse inner >>= fun e => Check.rule fun types =>
      coerce types e (.builtin .int64) .implicit) s = _
    rw [run_bind (checked analyse s), Check.rule, converted]
  generalize type : intLiteralType value = t
  have plain := expr_literal type place
  have isInteger : t = .int32 ∨ t = .uint32 ∨ t = .int64 ∨ t = .uint64 := by
    rcases intLiteralType_cases value with ⟨-, is⟩ | ⟨-, is⟩ | ⟨-, is⟩ | ⟨-, is⟩ <;> simp [← type, is]
  cases negated with
  | false =>
    rcases isInteger with rfl | rfl | rfl | rfl
    · refine ⟨[.const (.int value.toInt64) .i32, .cast .sext 1 .i64], 2,
        ⟨_, coerced plain fun _ => rfl, fun _ _ _ _ _ => rfl⟩, ?_⟩
      rw [storedBits, ← narrow]
      rfl
    · refine ⟨[.const (.int value.toInt64) .i32, .cast .zext 1 .i64], 2,
        ⟨_, coerced plain fun _ => rfl, fun _ _ _ _ _ => rfl⟩, ?_⟩
      rw [storedBits, ← narrow]
      rfl
    all_goals
      refine ⟨[.const (.int value.toInt64) .i64], 1, ⟨_, coerced plain fun _ => rfl, fun _ _ _ _ _ => rfl⟩, ?_⟩
      change Ir.held? _ _ = some (⟨64, .ofNat 64 value.toNat⟩ : Ir.Word)
      rw [← wide]
      rfl
  | true =>
    rcases isInteger with rfl | rfl | rfl | rfl
    · refine ⟨[.const (.int value.toInt64) .i32, .unary .neg 1, .cast .sext 2 .i64], 3,
        ⟨_, coerced (expr_negated type rfl span sign place) fun _ => rfl, fun _ _ _ _ _ => rfl⟩, ?_⟩
      rw [storedBits, ← narrow]
      rfl
    · refine ⟨[.const (.int value.toInt64) .i32, .unary .neg 1, .cast .zext 2 .i64], 3,
        ⟨_, coerced (expr_negated type rfl span sign place) fun _ => rfl, fun _ _ _ _ _ => rfl⟩, ?_⟩
      rw [storedBits, ← narrow]
      rfl
    all_goals
      refine ⟨[.const (.int value.toInt64) .i64, .unary .neg 1], 2,
        ⟨_, coerced (expr_negated type rfl span sign place) fun _ => rfl, fun _ _ _ _ _ => rfl⟩, ?_⟩
      change Ir.held? _ _ = some (⟨64, -BitVec.ofNat 64 value.toNat⟩ : Ir.Word)
      rw [← wide]
      rfl

end Lowering

open Lowering Typed

/-- The main program of the module is code without jumps that leaves the bits in `x`. -/
def Ir.Module.Stores (m : Ir.Module) (bits : BitVec 64) : Prop :=
  ∃ instrs last, m.functions.getLast? = some (.defined "main" [] .i32 [⟨0, some "entry", instrs, some last⟩]) ∧
    Ir.held? instrs "g.x" = some ⟨64, bits⟩

def beforeDigits (negated : Bool) : String := if negated then "x as int64 = -" else "x as int64 = "

theorem parse_literal (negated : Bool) (value : UInt64) : ∃ span span' sign place,
    Source.parseProgram (beforeDigits negated ++ toString value.toNat) =
      ⟨some (declaring span (literalExpr negated span' sign place value)), []⟩ := by
  obtain ⟨c, digits, written⟩ := exists_cons_of_ne_nil (@Nat.toDigits_ne_nil value.toNat 10)
  have all : ∀ d ∈ c :: digits, isDigit d = true := fun d mem => isDigit_of_toDigits (written ▸ mem)
  have first := all c (by simp)
  have others : ∀ d ∈ digits, isDigit d = true := fun d mem => all d (by simp [mem])
  have number : digitsValue 10 (c :: digits) = value.toNat := by rw [← written, digitsValue_toDigits]
  unfold Source.parseProgram TokenStream.ofText
  rw [String.toList_append, Nat.toString_eq_ofList_toDigits, String.toList_ofList, written]
  cases negated with
  | false =>
    change ∃ _ _ _ _, Source.runParse _ (scanFrom 0 ("x as int64 = ".toList ++ c :: digits) _ _) = _
    rw [scanFrom_opening, scanFrom_digits 13 first others number]
    exact ⟨_, Span.none, Span.none, _, rfl⟩
  | true =>
    change ∃ _ _ _ _, Source.runParse _ (scanFrom 0 ("x as int64 = ".toList ++ '-' :: c :: digits) _ _) = _
    rw [scanFrom_opening, scanFrom_minus 13 first, scanFrom_digits 14 first others number]
    exact ⟨_, _, _, _, rfl⟩

theorem compile_storedBits
    (commands : Check.commandsFrom 0 ctx.commands (.start ctx.pointer ctx.memberAlign) = .ok ((), s))
    (free : s.scopes.findHere ScopeTree.root "x" = none) (name : String) (negated : Bool) (value : UInt64) :
    ∃ m, compile ctx ⟨name, beforeDigits negated ++ toString value.toNat⟩ = ⟨some m, []⟩ ∧
      m.Stores (storedBits negated (intLiteralType value) value.toNat) := by
  obtain ⟨span, span', sign, place, parsed⟩ := parse_literal negated value
  obtain ⟨ops, r, ⟨e, checked, code⟩, held⟩ := literalExpr_valued negated value span' sign place
  obtain ⟨m, lowered, last⟩ := lower_declared name (code ctx s.scopes s.commands span)
  refine ⟨m, ?_, mainInstrs ops r, _, last, held⟩
  have typed := check_declaring commands free checked span
  unfold compile checkText
  rw [parsed]
  change Outcome.andThen (Outcome.andThen ⟨some (declaring span _), []⟩ (checkProgram ctx)) (lowerProgram name) = _
  have first : checkProgram ctx (declaring span (literalExpr negated span' sign place value)) =
      ⟨some (declared ctx s.scopes s.commands span e), []⟩ := by
    rw [checkProgram, typed]
  have second : lowerProgram name (declared ctx s.scopes s.commands span e) = ⟨some m, []⟩ := by
    rw [lowerProgram, lowered]
  change Outcome.andThen ⟨(checkProgram ctx _).result, [] ++ (checkProgram ctx _).reports⟩ (lowerProgram name) = _
  rw [first]
  change (⟨(lowerProgram name _).result, [] ++ (lowerProgram name _).reports⟩ : Outcome Ir.Module) = _
  rw [second]
  rfl

theorem storedBits_plain : storedBits false (intLiteralType value) value.toNat = .ofNat 64 value.toNat := by
  rcases intLiteralType_cases value with ⟨below, is⟩ | ⟨⟨-, below⟩, is⟩ | ⟨-, is⟩ | ⟨-, is⟩
  · apply BitVec.eq_of_toNat_eq
    rw [is, storedBits, if_neg Bool.false_ne_true, BitVec.toNat_signExtend, BitVec.msb_eq_decide, BitVec.toNat_setWidth,
      BitVec.toNat_ofNat, BitVec.toNat_ofNat]
    simp only [decide_eq_true_eq]
    split <;> omega
  · apply BitVec.eq_of_toNat_eq
    rw [is, storedBits, if_neg Bool.false_ne_true, BitVec.toNat_setWidth, BitVec.toNat_ofNat, BitVec.toNat_ofNat]
    omega
  all_goals
    rw [is]
    rfl

theorem storedBits_negated (value : UInt64) : storedBits true (intLiteralType value) value.toNat =
    if 2 ^ 31 ≤ value.toNat ∧ value.toNat < 2 ^ 32 then .ofNat 64 (2 ^ 32 - value.toNat)
    else .ofInt 64 (-value.toNat) := by
  rcases intLiteralType_cases value with ⟨below, is⟩ | ⟨between, is⟩ | ⟨⟨above, -⟩, is⟩ | ⟨above, is⟩
  · rw [if_neg (by omega), is, storedBits, if_pos rfl]
    apply BitVec.eq_of_toNat_eq
    rw [BitVec.toNat_signExtend, BitVec.msb_eq_decide, BitVec.toNat_setWidth, BitVec.toNat_neg, BitVec.toNat_ofNat,
      BitVec.toNat_ofInt]
    simp only [decide_eq_true_eq]
    split <;> omega
  · rw [if_pos between, is, storedBits, if_pos rfl]
    apply BitVec.eq_of_toNat_eq
    rw [BitVec.toNat_setWidth, BitVec.toNat_neg, BitVec.toNat_ofNat, BitVec.toNat_ofNat]
    omega
  all_goals
    rw [if_neg (by omega), is, BitVec.ofInt_neg, BitVec.ofInt_natCast]
    rfl

/-- Stored literals. A number below `2 ^ 63` is stored as it is. Behind a `-` its negative is stored, up to `2 ^ 63`,
unless the number is one for which the type uint32 is chosen: then it is negated in 32 bits, and what is left is
extended with zeros. -/
theorem compile_literal {ctx : Context} {s : CheckState}
    (commands : Check.commandsFrom 0 ctx.commands (.start ctx.pointer ctx.memberAlign) = .ok ((), s))
    (free : s.scopes.findHere ScopeTree.root "x" = none) (name : String) (v : Nat) (below : v ≤ 2 ^ 63) :
    (∃ m, compile ctx ⟨name, "x as int64 = " ++ toString v⟩ = ⟨some m, []⟩ ∧ m.Stores (.ofNat 64 v)) ∧
    ∃ m, compile ctx ⟨name, "x as int64 = -" ++ toString v⟩ = ⟨some m, []⟩ ∧
      m.Stores (if 2 ^ 31 ≤ v ∧ v < 2 ^ 32 then .ofNat 64 (2 ^ 32 - v) else .ofInt 64 (-v)) := by
  obtain ⟨value, rfl⟩ : ∃ value : UInt64, value.toNat = v :=
    ⟨.ofNat v, UInt64.toNat_ofNat_of_lt' (Nat.lt_of_le_of_lt below (by decide))⟩
  rw [← storedBits_plain, ← storedBits_negated]
  exact ⟨compile_storedBits commands free name false value, compile_storedBits commands free name true value⟩

theorem leastInteger_stored : ∃ m, compile (.standard .bits64) ⟨"least", "x as int64 = -" ++ toString (2 ^ 63)⟩ =
    ⟨some m, []⟩ ∧ m.Stores (.ofInt 64 (-(2 ^ 63 : Nat))) := by
  have free : ((Check.commandsFrom 0 (Context.standard .bits64).commands
      (.start (Context.standard .bits64).pointer (Context.standard .bits64).memberAlign)).toOption.any
        fun p => (p.2.scopes.findHere ScopeTree.root "x").isNone) = true := by
    decide +kernel
  cases commands : Check.commandsFrom 0 (Context.standard .bits64).commands
      (.start (Context.standard .bits64).pointer (Context.standard .bits64).memberAlign) with
  | error e =>
    rw [commands] at free
    cases free
  | ok p =>
    rw [commands] at free
    exact (compile_literal commands (Option.isNone_iff_eq_none.mp free) "least" (2 ^ 63) (by decide)).2

theorem Ir.Module.Stores.unique {m : Ir.Module} (h : m.Stores a) (h' : m.Stores b) : a = b := by
  obtain ⟨instrs, last, main, held⟩ := h
  obtain ⟨instrs', last', main', held'⟩ := h'
  cases main.symm.trans main'
  cases held.symm.trans held'
  rfl

/-- A number that only uint32 holds: another one than its negative is stored. -/
theorem negatedLiteral_misses : ∃ m, compile (.bare .bits64) ⟨"<input>", "x as int64 = -3000000000"⟩ = ⟨some m, []⟩ ∧
    m.Stores 1294967296 ∧ ¬ m.Stores (.ofInt 64 (-3000000000)) := by
  have commands : Check.commandsFrom 0 (Context.bare .bits64).commands (.start .bits64 (Context.bare .bits64).memberAlign) =
      .ok ((), .start .bits64 (Context.bare .bits64).memberAlign) := rfl
  obtain ⟨m, compiled, stores⟩ := compile_storedBits commands rfl "<input>" true 3000000000
  have bits : storedBits true (intLiteralType 3000000000) (UInt64.toNat 3000000000) = 1294967296 := by decide
  rw [bits] at stores
  exact ⟨m, compiled, stores, fun other => absurd (stores.unique other) (by decide)⟩

end BasicCompiler
