/-
# Checking ignores case

A program with its names in small letters is checked like the program itself: the tables hold the same names in small
letters, the trees are the same, and a fault is found at the same places (`check_caseless`).
-/
import BasicCompiler.Proofs.Typed.Casing

namespace BasicCompiler

open List Typed.Check Option Typed.CheckState
open Rewording (caseless)

def CommandDecl.folded (c : CommandDecl) : CommandDecl := { c with name := fold c.name }

def Context.folded (ctx : Context) : Context := { ctx with commands := ctx.commands.map CommandDecl.folded }

namespace Typed

/-! ## States -/

def Function.folded (f : Function) : Function := { f with name := fold f.name }

def Command.folded (c : Command) : Command := { c with name := fold c.name }

def Program.folded (p : Program) : Program :=
  { p with
    scopes := p.scopes.folded
    types := p.types.folded
    commands := p.commands.map Command.folded
    functions := p.functions.map Function.folded
    main := p.main.folded }

def Analysis.folded : Analysis → Analysis
  | .done f => .done f.folded
  | analysis => analysis

def Signature.folded (sig : Signature) : Signature := { sig with analysis := sig.analysis.folded }

def CheckState.folded (s : CheckState) : CheckState :=
  { s with
    scopes := s.scopes.folded
    types := s.types.folded
    commands := s.commands.map Command.folded
    signatures := s.signatures.map Signature.folded }

/-- With names in small letters `m'` does what `m` does, and its answer is that of `m`
changed by `act`. Either both report nothing, or both report one fault and stop. -/
def IgnoresCase {α β : Type} (act : α → β) (m : Check α) (m' : Check β) : Prop :=
  ∀ s, StopAlike s.reports (fun r => r.2.reports = s.reports) (fun r => (act r.1, r.2.folded)) (m s) (m' s.folded)

abbrev Alike {α : Type} (m m' : Check α) : Prop := IgnoresCase id m m'

namespace IgnoresCase

theorem pure (same : b = act a) : IgnoresCase act (Pure.pure a) (Pure.pure b) := by
  subst same
  exact fun s => .ok (a, s) rfl

theorem bind (first : IgnoresCase act m m') (second : ∀ a, IgnoresCase act' (f a) (f' (act a))) :
    IgnoresCase act' (m >>= f) (m' >>= f') :=
  fun s => .bind (first s) fun r kept => kept ▸ second r.1 r.2

theorem andThen (first : Alike m m') (second : ∀ a, IgnoresCase act' (f a) (f' a)) :
    IgnoresCase act' (m >>= f) (m' >>= f') := bind first second

theorem fail {fault fault' : CheckFault} {span : Span} :
    IgnoresCase act (fail fault span) (fail fault' span) := fun _ => .error rfl

theorem failed {fault fault' : CheckFault} {span : Span} :
    IgnoresCase act' (Check.fail fault span >>= f) (Check.fail fault' span >>= f') := fun _ => .error rfl

theorem look {look : CheckState → α} {look' : CheckState → β} (same : ∀ s, look' s.folded = act (look s)) :
    IgnoresCase act (fun s => .ok (look s, s)) (fun s => .ok (look' s, s)) := by
  intro s
  dsimp only
  rw [same s]
  exact .ok (look s, s) rfl

theorem get : IgnoresCase folded MonadState.get MonadState.get := look fun _ => rfl

theorem change (silent : ∀ s, (f s).reports = s.reports) (same : ∀ s, f' s.folded = (f s).folded) :
    Alike (modify f) (modify f') := by
  intro s
  change StopAlike _ _ _ (.ok ((), f s)) (.ok ((), f' s.folded))
  rw [same s]
  exact .ok ((), f s) (silent s)

theorem ite [Decidable c] (yes : IgnoresCase act m m') (no : IgnoresCase act n n') :
    IgnoresCase act (if c then m else n) (if c then m' else n') := by
  split
  · exact yes
  · exact no

theorem rule (same : ∀ types, RulesAlike act (r types) (r' types.folded)) :
    IgnoresCase act (Check.rule r) (Check.rule r') := by
  intro s
  have here := same s.types
  unfold Check.rule
  rw [show s.folded.types = s.types.folded from rfl]
  generalize r s.types = first, r' s.types.folded = second at here
  cases here with
  | ok a => exact .ok (a, s) rfl
  | error same => exact .error same

/-! ## Symbols -/

theorem addSymbol (scope : ScopeId) (name : Ident) (kind : SymbolKind) :
    Alike (Check.addSymbol scope name kind) (Check.addSymbol scope (caseless.ident name) kind) := by
  intro s
  have here : s.folded.scopes.findHere scope (caseless.ident name).node = s.scopes.findHere scope name.node :=
    s.scopes.findHere_folded scope name.node
  unfold Check.addSymbol ScopeTree.add
  rw [here]
  cases s.scopes.findHere scope name.node with
  | none =>
    have added : s.folded.scopes.insert ⟨(caseless.ident name).node, (caseless.ident name).span, scope, kind⟩ = _ :=
      s.scopes.insert_folded ⟨name.node, name.span, scope, kind⟩
    have length : s.folded.scopes.symbols.length = s.scopes.symbols.length := length_map _
    dsimp only
    rw [added, length]
    refine .ok (_, { s with scopes := _ }) ?_
    rfl
  | some existing =>
    refine .error ?_
    unfold Check.redeclaration
    rw [show s.folded.scopes.get? existing = _ from s.scopes.get?_folded existing]
    cases s.scopes.get? existing with
    | none => rfl
    | some previous =>
      refine congrArg (Prod.mk name.span) ?_
      simp only [map_some, Symbol.folded]

theorem pushScope (owner : Option SymbolId) : Alike (pushScope owner) (pushScope owner) := fun _ => .ok (_, _) rfl

theorem lookUp (name : String) (reach : Reach) : Alike (lookUp name reach) (lookUp (fold name) reach) :=
  look fun s => s.scopes.find_folded s.body.scope name reach

theorem kind_folded (s : CheckState) (symbol : SymbolId) :
    (s.folded.scopes.get? symbol).map (·.kind) = (s.scopes.get? symbol).map (·.kind) := by
  rw [show s.folded.scopes.get? symbol = _ from s.scopes.get?_folded symbol, Option.map_map]
  rfl

theorem symbolKind (symbol : SymbolId) : Alike (symbolKind symbol) (symbolKind symbol) :=
  look fun s => kind_folded s symbol

theorem rootKind (name : String) : Alike (rootKind name) (rootKind (fold name)) := by
  refine look fun s => ?_
  rw [show s.folded.scopes.findHere ScopeTree.root (fold name) = _ from s.scopes.findHere_folded ScopeTree.root name]
  cases s.scopes.findHere ScopeTree.root name with
  | none => rfl
  | some symbol => exact kind_folded s symbol

theorem extendOverloads (symbol : SymbolId) (name : Ident) (overload : Overload) :
    Alike (extendOverloads symbol name overload) (extendOverloads symbol (caseless.ident name) overload) := by
  refine bind (symbolKind symbol) fun kind => ?_
  cases kind with
  | none => exact fail
  | some kind =>
    cases kind with
    | function overloads =>
      refine ite fail (bind (change (fun _ => rfl) fun s => ?_) fun _ => pure rfl)
      exact congrArg (fun scopes => { s.folded with scopes }) (s.scopes.modifyKind_folded symbol _)
    | _ => exact fail

theorem addOverload (name : Ident) (overload : Overload) :
    Alike (addOverload name overload) (addOverload (caseless.ident name) overload) := by
  refine bind get fun s => ?_
  rw [show s.folded.scopes.findHere ScopeTree.root (caseless.ident name).node = _ from
    s.scopes.findHere_folded ScopeTree.root name.node]
  cases s.scopes.findHere ScopeTree.root name.node with
  | none => exact bind (addSymbol _ name _) fun _ => pure rfl
  | some symbol => exact extendOverloads symbol name overload

/-! ## Type names -/

theorem resolveTypeName (type : Source.TypeName) :
    Alike (Check.resolveTypeName type) (Check.resolveTypeName (type.reword caseless)) := by
  unfold Check.resolveTypeName
  rw [show BuiltinType.ofName? (type.reword caseless).name.node = _ from BuiltinType.ofName?_fold type.name.node]
  have rest (base : Ty) : Alike
      (Pure.pure base >>= fun base => Pure.pure (if type.isArray then .arrayOf base else base))
      (Pure.pure base >>= fun base => Pure.pure (if type.isArray then .arrayOf base else base)) := pure rfl
  cases BuiltinType.ofName? type.name.node with
  | none =>
    refine bind (rootKind type.name.node) fun kind => ?_
    cases kind with
    | none => exact failed
    | some kind =>
      cases kind with
      | userType id => exact rest _
      | _ => exact failed
  | some t =>
    cases t with
    | void | any | array => exact failed
    | _ => exact rest _

theorem typeOrSuffix (name : String) (type : Option Source.TypeName) :
    Alike (typeOrSuffix name type) (typeOrSuffix (fold name) (type.map (·.reword caseless))) := by
  cases type with
  | none => exact pure (suffixType_fold name)
  | some type => exact resolveTypeName type

theorem declType (decl : Source.VarDecl) : Alike (declType decl) (declType (decl.reword caseless)) := by
  refine bind (typeOrSuffix decl.name.node decl.type) fun base => pure ?_
  rw [show (decl.reword caseless).dim.isSome = decl.dim.isSome from isSome_map]
  rfl

/-! ## Variables of the body -/

theorem declareLocal (name : Ident) (type : Ty) :
    Alike (declareLocal name type) (declareLocal (caseless.ident name) type) :=
  bind get fun s => bind (addSymbol s.body.scope name _) fun _ => bind (change (fun _ => rfl) fun _ => rfl) fun _ => pure rfl

theorem varExpr (symbol : SymbolId) (span : Span) : Alike (varExpr symbol span) (varExpr symbol span) := by
  refine bind get fun s => ?_
  rw [show s.folded.scopes.get? symbol = _ from s.scopes.get?_folded symbol]
  cases s.scopes.get? symbol with
  | none => exact fail
  | some found =>
    obtain ⟨name, place, scope, kind⟩ := found
    cases kind with
    | «variable» v => exact pure rfl
    | _ => exact fail

/-! ## Signatures -/

section

variable (function : FunctionId)

theorem signature (span : Span) : IgnoresCase Signature.folded (signature function span) (signature function span) := by
  refine bind get fun s => ?_
  rw [show s.folded.signatures[function]? = s.signatures[function]?.map Signature.folded from getElem?_map]
  cases s.signatures[function]? with
  | none => exact fail
  | some sig => exact pure rfl

theorem modifySignature (same : ∀ sig, f' sig.folded = (f sig).folded) :
    Alike (modifySignature function f) (modifySignature function f') :=
  change (fun _ => rfl) fun s => congrArg (fun signatures => { s.folded with signatures }) (modify_map same s.signatures function)

theorem setResult (result : Ty) : Alike (setResult function result) (setResult function result) := by
  refine change (fun s => ?_) fun s => ?_
  · split <;> rfl
  rw [show s.folded.signatures[function]? = s.signatures[function]?.map Signature.folded from getElem?_map]
  cases s.signatures[function]? with
  | none => rfl
  | some sig =>
    have signatures : s.folded.signatures.modify function (fun sig => { sig with result := some result }) =
        (s.signatures.modify function fun sig => { sig with result := some result }).map Signature.folded :=
      modify_map (by exact fun _ => rfl) s.signatures function
    have scopes : s.folded.scopes.modifyKind sig.symbol (withResult sig.overload result) =
        (s.scopes.modifyKind sig.symbol (withResult sig.overload result)).folded :=
      s.scopes.modifyKind_folded sig.symbol _
    simp only [map_some]
    rw [signatures, show sig.folded.symbol = sig.symbol from rfl, show sig.folded.overload = sig.overload from rfl,
      scopes]
    rfl

end

def Analysed (analyse analyse' : FunctionId → Check Unit) : Prop :=
  ∀ function, Alike (analyse function) (analyse' function)

theorem isPending_folded (analysis : Analysis) : analysis.folded.isPending = analysis.isPending := by
  cases analysis <;> rfl

theorem function?_folded (analysis : Analysis) :
    analysis.folded.function? = analysis.function?.map Function.folded := by
  cases analysis <;> rfl

/-! ## Commands and types -/

theorem command (index : Nat) (decl : CommandDecl) :
    Alike (Check.command index decl) (Check.command index decl.folded) := by
  unfold Check.command
  rw [show decl.folded.pattern = decl.pattern from rfl]
  cases parsePattern decl.pattern with
  | error e => exact fail
  | ok members =>
    refine bind (change (fun _ => rfl) fun s => ?_) fun _ => bind (addOverload ⟨decl.name, Span.none⟩ _) fun _ => pure rfl
    simp only [folded, map_append, map_cons, map_nil]
    rfl

theorem commandsFrom (decls : List CommandDecl) (index : Nat) :
    Alike (commandsFrom index decls) (commandsFrom index (decls.map CommandDecl.folded)) := by
  induction decls generalizing index with
  | nil => exact pure rfl
  | cons decl rest ih => exact bind (command index decl) fun _ => ih (index + 1)

theorem typeName (decl : Source.TypeDecl) : Alike (Check.typeName decl) (Check.typeName (decl.reword caseless)) := by
  unfold Check.typeName
  rw [show BuiltinType.ofName? (decl.reword caseless).name.node = _ from BuiltinType.ofName?_fold decl.name.node]
  refine ite fail (bind (pushScope none) fun scope => bind get fun s => ?_)
  rw [show s.folded.types.declare (decl.reword caseless).name.node = _ from s.types.declare_folded decl.name.node]
  refine andThen (change (fun _ => rfl) fun _ => rfl) fun _ => ?_
  exact bind (addSymbol _ decl.name _) fun _ => bind (change (fun _ => rfl) fun _ => rfl) fun _ => pure rfl

theorem typeNames (decls : List Source.TypeDecl) :
    Alike (typeNames decls) (typeNames (decls.map (·.reword caseless))) := by
  induction decls with
  | nil => exact pure rfl
  | cons decl rest ih => exact bind (typeName decl) fun _ => bind ih fun _ => pure rfl

theorem fieldTypes (laidOut : ∀ type, Alike (layOut type) (layOut' type)) (fields : List Source.Field) :
    IgnoresCase TypeTable.foldFields (fieldTypes layOut fields)
      (fieldTypes layOut' (fields.map (·.reword caseless))) := by
  induction fields with
  | nil => exact pure rfl
  | cons field rest ih =>
    refine andThen (resolveTypeName field.type) fun type => ?_
    dsimp only
    cases type.user? with
    | none => exact bind ih fun _ => pure rfl
    | some inner => exact andThen (laidOut inner) fun _ => bind ih fun _ => pure rfl

theorem memberSymbols (scope : ScopeId) (members : List (Source.Field × Member)) (index : Nat) :
    Alike (memberSymbols scope index members)
      (memberSymbols scope index (members.map fun m => (m.1.reword caseless, m.2.folded))) := by
  induction members generalizing index with
  | nil => exact pure rfl
  | cons m rest ih => exact bind (addSymbol scope m.1.name _) fun _ => ih (index + 1)

theorem layOutType (decls : List (Source.TypeDecl × ScopeId)) (depth : Nat) (path : List UserTypeId) (type : UserTypeId) :
    Alike (Check.layOutType decls depth path type)
      (Check.layOutType (decls.map fun d => (d.1.reword caseless, d.2)) depth path type) := by
  induction depth generalizing path type with
  | zero => exact fail
  | succ depth ih =>
    unfold Check.layOutType
    rw [getElem?_map]
    cases decls[type]? with
    | none => exact pure rfl
    | some found =>
      refine bind get fun s => ?_
      rw [show (s.folded.types.get type).isLaidOut = (s.types.get type).isLaidOut by
        rw [show s.folded.types = s.types.folded from rfl, TypeTable.get_folded]; rfl]
      refine ite (pure rfl) (ite fail (bind (fieldTypes (ih (type :: path)) found.1.fields) fun fields => ?_))
      refine bind (change (fun _ => rfl) fun s => ?_) fun _ => bind get fun s => ?_
      · exact congrArg (fun types => { s.folded with types }) (s.types.layout_folded type fields)
      · have zipped : (found.1.reword caseless).fields.zip (s.folded.types.get type).members =
            (found.1.fields.zip (s.types.get type).members).map fun m => (m.1.reword caseless, m.2.folded) := by
          rw [show s.folded.types = s.types.folded from rfl, TypeTable.get_folded]
          exact zip_map
        dsimp only
        rw [zipped]
        exact memberSymbols _ _ _

theorem layOutTypes (decls : List (Source.TypeDecl × ScopeId)) (types : List UserTypeId) :
    Alike (Check.layOutTypes decls types)
      (Check.layOutTypes (decls.map fun d => (d.1.reword caseless, d.2)) types) := by
  induction types with
  | nil => exact pure rfl
  | cons type rest ih =>
    unfold Check.layOutTypes
    rw [length_map]
    exact bind (layOutType decls _ [] type) fun _ => ih

theorem types (decls : List Source.TypeDecl) : Alike (types decls) (types (decls.map (·.reword caseless))) := by
  refine bind (typeNames decls) fun scopes => ?_
  rw [zip_map_left, length_map]
  exact layOutTypes _ _

/-! ## Functions and globals -/

theorem params (ps : List Source.Param) : Alike (params ps) (params (ps.map (·.reword caseless))) := by
  induction ps with
  | nil => exact pure rfl
  | cons p rest ih => exact bind (typeOrSuffix p.name.node p.type) fun _ => bind ih fun _ => pure rfl

theorem paramSymbols (scope : ScopeId) (ps : List (Source.Param × Param)) (index : Nat) :
    Alike (paramSymbols scope index ps) (paramSymbols scope index (ps.map fun p => (p.1.reword caseless, p.2))) := by
  induction ps generalizing index with
  | nil => exact pure rfl
  | cons p rest ih => exact bind (addSymbol scope p.1.name _) fun _ => bind (ih (index + 1)) fun _ => pure rfl

theorem resultType (type : Option Source.TypeName) {f : Option Ty → Check γ}
    (second : ∀ result, IgnoresCase act' (f result) (f' result)) :
    IgnoresCase act'
      (match type with
      | some type => Check.resolveTypeName type >>= fun t => Pure.pure (some t) >>= f
      | none => Pure.pure none >>= f)
      (match type.map (·.reword caseless) with
      | some type => Check.resolveTypeName type >>= fun t => Pure.pure (some t) >>= f'
      | none => Pure.pure none >>= f') := by
  cases type with
  | none => exact second none
  | some type => exact andThen (resolveTypeName type) fun t => second (some t)

theorem functionSignature (function : FunctionId) (f : Source.Function) :
    Alike (functionSignature function f) (functionSignature function (f.reword caseless)) := by
  refine andThen (params f.params) fun ps => resultType f.result fun result => ?_
  refine andThen (addOverload f.name _) fun added => andThen (pushScope _) fun scope => ?_
  rw [show (f.reword caseless).params.zip ps = _ from zip_map_left]
  refine andThen (paramSymbols scope _ 0) fun symbols => change (fun _ => rfl) fun s => ?_
  simp only [folded, map_append, map_cons, map_nil,
    show linkName (f.reword caseless).name.node added.2 = _ from linkName_fold f.name.node added.2]
  rfl

theorem functionsFrom (fs : List Source.Function) (function : FunctionId) :
    Alike (functionsFrom function fs) (functionsFrom function (fs.map (·.reword caseless))) := by
  induction fs generalizing function with
  | nil => exact pure rfl
  | cons f rest ih => exact bind (functionSignature function f) fun _ => ih (function + 1)

theorem global (decl : Source.VarDecl) : Alike (global decl) (global (decl.reword caseless)) :=
  bind (declType decl) fun _ => bind (addSymbol _ decl.name _) fun _ => change (fun _ => rfl) fun _ => rfl

theorem globals (decls : List Source.VarDecl) : Alike (globals decls) (globals (decls.map (·.reword caseless))) := by
  induction decls with
  | nil => exact pure rfl
  | cons decl rest ih => exact bind (global decl) fun _ => ih

theorem labelsFrom (labels : List Ident) (index : Nat) :
    Alike (labelsFrom index labels) (labelsFrom index (labels.map caseless.ident)) := by
  induction labels generalizing index with
  | nil => exact pure rfl
  | cons label rest ih =>
    exact bind get fun s => bind (addSymbol s.body.scope label _) fun _ => bind (change (fun _ => rfl) fun _ => rfl) fun _ => ih (index + 1)

/-! ## Expressions -/

theorem kindOf (found : Option SymbolId) {f : Option SymbolKind → Check γ} {f' : Option SymbolKind → Check δ}
    (second : ∀ kind, IgnoresCase act' (f kind) (f' kind)) :
    IgnoresCase act'
      (match found with
      | some symbol => Check.symbolKind symbol >>= f
      | none => Pure.pure none >>= f)
      (match found with
      | some symbol => Check.symbolKind symbol >>= f'
      | none => Pure.pure none >>= f') := by
  cases found with
  | none => exact second none
  | some symbol => exact andThen (symbolKind symbol) second

theorem calleeKind (callee : Ident) : Alike (calleeKind callee) (calleeKind (caseless.ident callee)) := by
  refine andThen (lookUp callee.node .ancestors) fun found => kindOf found fun kind => ?_
  rw [show BuiltinType.ofName? (caseless.ident callee).node = _ from BuiltinType.ofName?_fold callee.node]
  cases kind with
  | none =>
    cases BuiltinType.ofName? callee.node with
    | none => exact fail
    | some t => exact pure rfl
  | some kind =>
    cases kind with
    | function overloads => exact pure rfl
    | _ =>
      cases BuiltinType.ofName? callee.node with
      | none => exact fail
      | some t => exact pure rfl

theorem optional {check : α → Check γ} (reword : α → β) (each : ∀ a, Alike (check a) (check' (reword a))) (o : Option α) :
    Alike (optional check o) (optional check' (o.map reword)) := by
  cases o with
  | none => exact pure rfl
  | some a => exact andThen (each a) fun _ => pure rfl

theorem declaredVariable (decl : Source.VarDecl) :
    Alike (declaredVariable decl) (declaredVariable (decl.reword caseless)) := by
  refine bind get fun s => ite ?_ (andThen (declType decl) fun type => declareLocal decl.name type)
  rw [show s.folded.predeclared.lookup (decl.reword caseless).name.span = s.predeclared.lookup decl.name.span from rfl]
  cases s.predeclared.lookup decl.name.span with
  | none => exact fail
  | some symbol => exact pure rfl

theorem refuse {fault fault' : TypeTable → CheckFault} {span : Span} :
    IgnoresCase act (Check.rule fun types => Typed.refuse (fault types) span)
      (Check.rule fun types => Typed.refuse (fault' types) span) := rule fun _ => refuse_alike

theorem loopVariable (name : Ident) (hasStep : Bool) :
    Alike (loopVariable name hasStep) (loopVariable (caseless.ident name) hasStep) := by
  refine andThen (lookUp name.node .ancestors) fun found => ?_
  cases found with
  | some symbol => exact andThen (varExpr symbol name.span) fun var => ite (pure rfl) refuse
  | none =>
    dsimp only
    rw [show loopVariableType (caseless.ident name).node = _ from loopVariableType_fold name.node]
    simp only [lastChar_fold_iff (show IsUncased '$' by decide), Rewording.ident,
      show caseless.name name.node = fold name.node from rfl]
    exact ite fail (andThen (declareLocal name _) fun symbol => varExpr symbol name.span)

theorem noteBareReturn (span : Span) : Alike (noteBareReturn span) (noteBareReturn span) := by
  refine change (fun s => ?_) fun s => ?_
  · split <;> rfl
  rw [show s.folded.body = s.body from rfl]
  split <;> rfl

theorem gotoLabel (name : Ident) : Alike (Check.gotoLabel name) (Check.gotoLabel (caseless.ident name)) := by
  refine andThen (lookUp name.node .here) fun found => ?_
  have kinds : Alike (Check.optional Check.symbolKind found) (Check.optional Check.symbolKind found) := by
    have each := optional id symbolKind found
    rwa [Option.map_id, id] at each
  refine andThen kinds fun kind => ?_
  match found, kind with
  | some symbol, some (some (.label _)) => exact pure rfl
  | none, _ | some _, none | some _, some none => exact fail
  | some _, some (some (.variable _)) | some _, some (some (.function _)) | some _, some (some (.userType _)) => exact fail

section Bodies

variable (analysed : Analysed analyse analyse')
include analysed
set_option linter.unusedSectionVars false

theorem resultOf (function : FunctionId) (span : Span) :
    Alike (resultOf analyse function span) (resultOf analyse' function span) := by
  refine bind (signature function span) fun sig => ?_
  rw [show sig.folded.result = sig.result from rfl, show sig.folded.analysis.isPending = _ from
    isPending_folded sig.analysis]
  cases sig.result with
  | some result => exact pure rfl
  | none => exact ite (bind (analysed function) fun _ => bind (signature function span) fun _ => pure rfl) fail

theorem call (kind : Check.CalleeKind) (callee : Ident) (args : List Expr) (span : Span) :
    Alike (Check.call analyse kind callee args span)
      (Check.call analyse' kind (caseless.ident callee) args span) := by
  cases kind with
  | type t =>
    dsimp only [Check.call]
    exact rule fun types => typeConstruct_alike types t callee args span
  | overloads overloads =>
    refine andThen (rule fun types => resolveCall_alike types callee overloads args span) fun resolved => ?_
    obtain ⟨chosen, args⟩ := resolved
    dsimp only
    cases chosen.callee with
    | function id => exact andThen (resultOf analysed id callee.span) fun _ => pure rfl
    | command index => exact pure rfl

mutual

theorem expr : ∀ e : Source.Expr, Alike (expr analyse e) (expr analyse' (e.reword caseless))
  | .literal span value => pure rfl
  | .name span name => by
      refine andThen (lookUp name.node .ancestors) fun found => ?_
      cases found with
      | none => exact fail
      | some symbol => exact varExpr symbol span
  | .member span base name => andThen (expr base) fun base => rule fun types => typeMember_alike types base name span
  | .index span base place =>
      andThen (expr base) fun base => andThen (rule (Indifferent.elementType base)) fun elem =>
        andThen (expr place) fun place => andThen (rule (Indifferent.coerceIndex _ place)) fun _ => pure rfl
  | .call span callee args _ =>
      andThen (calleeKind callee) fun kind => andThen (exprs args) fun args => call analysed kind callee args span
  | .unary span op operand => andThen (expr operand) fun operand => rule (Indifferent.typeUnary op operand span)
  | .binary span op left right =>
      andThen (expr left) fun left => andThen (expr right) fun right => rule (Indifferent.typeBinary op left right span)

theorem exprs : ∀ es : List Source.Expr, Alike (exprs analyse es) (exprs analyse' (Source.rewordExprs caseless es))
  | [] => pure rfl
  | e :: rest => andThen (expr e) fun _ => andThen (exprs rest) fun _ => pure rfl

end

theorem exprAs (target : Ty) (e : Source.Expr) :
    Alike (exprAs analyse target e) (exprAs analyse' target (e.reword caseless)) :=
  andThen (expr analysed e) fun e => rule (Indifferent.coerce e target .implicit)

theorem exprsAs (target : Ty) (es : List Source.Expr) :
    Alike (exprsAs analyse target es) (exprsAs analyse' target (Source.rewordExprs caseless es)) := by
  induction es with
  | nil => exact pure rfl
  | cons e rest ih => exact andThen (exprAs analysed target e) fun _ => andThen ih fun _ => pure rfl

/-! ## Statements without statements inside -/

theorem declaration (decl : Source.VarDecl) (span : Span) :
    Alike (declaration analyse decl span) (declaration analyse' (decl.reword caseless) span) := by
  refine andThen (declaredVariable decl) fun symbol => andThen (symbolKind symbol) fun kind => ?_
  cases kind.bind SymbolKind.asVariable? with
  | none => exact fail
  | some v =>
    refine andThen (optional (Source.Expr.reword caseless) (fun size => ?_) decl.dim) fun dim => ?_
    · exact andThen (expr analysed size) fun size => rule (Indifferent.coerceIndex _ size)
    · exact andThen (optional _ (exprAs analysed v.type) decl.init) fun init => pure rfl

theorem placeExpr (target : Source.Expr) :
    Alike (placeExpr analyse target) (placeExpr analyse' (target.reword caseless)) :=
  andThen (expr analysed target) fun _ => ite (pure rfl) fail

theorem assignTarget (target : Source.Expr) (isPlain : Bool) :
    Alike (Check.assignTarget analyse target isPlain)
      (Check.assignTarget analyse' (target.reword caseless) isPlain) := by
  unfold Check.assignTarget
  rw [Source.Expr.asName?_reword]
  cases target.asName? with
  | none => exact placeExpr analysed target
  | some name =>
    refine andThen (lookUp name.node .ancestors) fun found => ?_
    cases found with
    | some symbol => exact placeExpr analysed target
    | none =>
      refine ite ?_ (placeExpr analysed target)
      rw [show suffixType (caseless.ident name).node = _ from suffixType_fold name.node]
      exact andThen (declareLocal name _) fun symbol => varExpr symbol name.span

theorem assignment (target : Source.Expr) (op : Option (Spanned BinaryOp)) (value : Source.Expr) (span : Span) :
    Alike (Check.assignment analyse target op value span)
      (Check.assignment analyse' (target.reword caseless) (op.map caseless.sign) (value.reword caseless) span) := by
  unfold Check.assignment
  rw [isNone_map]
  refine andThen (assignTarget analysed target op.isNone) fun target => andThen (expr analysed value) fun value => ?_
  cases op with
  | none =>
    exact andThen (pure rfl) fun value => andThen (rule (Indifferent.coerce value target.ty .implicit)) fun _ => pure rfl
  | some op =>
    refine andThen (rule (Indifferent.typeBinary op target.reread value span)) fun value => ?_
    exact andThen (rule (Indifferent.coerce value target.ty .implicit)) fun _ => pure rfl

theorem selector (e : Source.Expr) : Alike (selector analyse e) (selector analyse' (e.reword caseless)) :=
  andThen (expr analysed e) fun _ => ite (pure rfl) refuse

theorem returnValue (e : Source.Expr) : Alike (returnValue analyse e) (returnValue analyse' (e.reword caseless)) := by
  refine andThen (expr analysed e) fun value => bind get fun s => ?_
  rw [show s.folded.body.function = s.body.function from rfl, Source.Expr.span_reword]
  cases s.body.function with
  | none => exact fail
  | some function =>
    refine bind (signature function e.span) fun sig => ?_
    rw [show sig.folded.result = sig.result from rfl]
    cases sig.result with
    | some result => exact ite fail (rule (Indifferent.coerce value result .implicit))
    | none => exact ite fail (andThen (setResult function value.ty) fun _ => pure rfl)

/-! ## Statements and blocks -/

mutual

theorem stmt : ∀ s : Source.Stmt, Alike (Check.stmt analyse s) (Check.stmt analyse' (s.reword caseless))
  | .label span name => by
      refine andThen (lookUp name.node .here) fun found => ?_
      cases found with
      | none => exact fail
      | some symbol => exact pure rfl
  | .declare span decl => declaration analysed decl span
  | .assign span target op value => assignment analysed target op value span
  | .call span callee args =>
      andThen (calleeKind callee) fun kind => andThen (exprs analysed args.exprs) fun args =>
        andThen (call analysed kind callee args span) fun _ => pure rfl
  | .ifChain span bs otherwise => andThen (branches bs) fun _ => andThen (elseBlock otherwise) fun _ => pure rfl
  | .select span value cs =>
      andThen (selector analysed value) fun value => andThen (cases value.ty cs) fun _ => pure rfl
  | .doLoop span body => andThen (block body) fun _ => pure rfl
  | .whileLoop span cond body => andThen (exprAs analysed .bool cond) fun _ => andThen (block body) fun _ => pure rfl
  | .repeatLoop span body cond => andThen (block body) fun _ => andThen (exprAs analysed .bool cond) fun _ => pure rfl
  | .forLoop span name start bound inclusive step body => by
      unfold Source.Stmt.reword Check.stmt
      rw [isSome_map]
      exact andThen (loopVariable name step.isSome) fun var => andThen (exprAs analysed var.ty start) fun _ =>
        andThen (exprAs analysed var.ty bound) fun _ =>
          andThen (optional _ (exprAs analysed var.ty) step) fun _ => andThen (block body) fun _ => pure rfl
  | .goto span name => andThen (gotoLabel name) fun _ => pure rfl
  | .ret span none => andThen (noteBareReturn span) fun _ => pure rfl
  | .ret span (some value) => andThen (returnValue analysed value) fun _ => pure rfl
  | .exitLoop _ | .continueLoop _ | .fallthrough _ | .stop _ => pure rfl

theorem stmts : ∀ body : List Source.Stmt,
    Alike (Check.stmts analyse body) (Check.stmts analyse' (Source.rewordStmts caseless body))
  | [] => pure rfl
  | s :: rest => andThen (stmt s) fun _ => andThen (stmts rest) fun _ => pure rfl

theorem block : ∀ body : Source.Block, Alike (Check.block analyse body) (Check.block analyse' (body.reword caseless))
  | .mk _ body => andThen (stmts body) fun _ => pure rfl

theorem branches : ∀ bs : List Source.Branch,
    Alike (Check.branches analyse bs) (Check.branches analyse' (Source.rewordBranches caseless bs))
  | [] => pure rfl
  | .mk cond body :: rest =>
      andThen (exprAs analysed .bool cond) fun _ => andThen (block body) fun _ =>
        andThen (branches rest) fun _ => pure rfl

theorem elseBlock : ∀ o : Option Source.Block,
    Alike (Check.elseBlock analyse o) (Check.elseBlock analyse' (Source.rewordElse caseless o))
  | none => pure rfl
  | some body => andThen (block body) fun _ => pure rfl

theorem cases (ty : Ty) : ∀ cs : List Source.Case,
    Alike (Check.cases analyse ty cs) (Check.cases analyse' ty (Source.rewordCases caseless cs))
  | [] => pure rfl
  | .mk _ values body :: rest => by
      have given : Alike (Check.exprsAs analyse ty ((values.map (·.exprs)).getD []))
          (Check.exprsAs analyse' ty (((values.map (·.reword caseless)).map (·.exprs)).getD [])) := by
        cases values with
        | none => exact exprsAs analysed ty []
        | some values => exact exprsAs analysed ty values.exprs
      exact andThen given fun _ => andThen (block body) fun _ => andThen (cases ty rest) fun _ => pure rfl

end

end Bodies

end IgnoresCase

/-! ## Declarations inside statements -/

section Collected

variable (w : Rewording) (topLevel : Bool)

mutual

theorem stmtGlobals_reword : ∀ s : Source.Stmt,
    stmtGlobals topLevel (s.reword w) = (stmtGlobals topLevel s).map (·.reword w)
  | .declare _ decl => by
      rw [Source.Stmt.reword, stmtGlobals, stmtGlobals, show (decl.reword w).scope = decl.scope from rfl]
      split <;> rfl
  | .ifChain _ bs none => branchGlobals_reword bs
  | .ifChain _ bs (some body) => by
      rw [Source.Stmt.reword, Source.rewordElse, stmtGlobals, stmtGlobals, branchGlobals_reword bs,
        blockGlobals_reword body, map_append]
  | .select _ _ cs => caseGlobals_reword cs
  | .doLoop _ body | .whileLoop _ _ body | .repeatLoop _ body _ | .forLoop _ _ _ _ _ _ body => blockGlobals_reword body
  | .label _ _ | .assign _ _ _ _ | .call _ _ _ | .goto _ _ | .ret _ _ | .exitLoop _
  | .continueLoop _ | .fallthrough _ | .stop _ => rfl

theorem stmtsGlobals_reword : ∀ body : List Source.Stmt,
    stmtsGlobals topLevel (Source.rewordStmts w body) = (stmtsGlobals topLevel body).map (·.reword w)
  | [] => rfl
  | s :: rest => by
      rw [Source.rewordStmts, stmtsGlobals, stmtsGlobals, stmtGlobals_reword s, stmtsGlobals_reword rest, map_append]

theorem blockGlobals_reword : ∀ body : Source.Block,
    blockGlobals topLevel (body.reword w) = (blockGlobals topLevel body).map (·.reword w)
  | .mk _ body => stmtsGlobals_reword body

theorem branchGlobals_reword : ∀ bs : List Source.Branch,
    branchGlobals topLevel (Source.rewordBranches w bs) = (branchGlobals topLevel bs).map (·.reword w)
  | [] => rfl
  | .mk _ body :: rest => by
      rw [Source.rewordBranches, branchGlobals, branchGlobals, blockGlobals_reword body,
        branchGlobals_reword rest, map_append]

theorem caseGlobals_reword : ∀ cs : List Source.Case,
    caseGlobals topLevel (Source.rewordCases w cs) = (caseGlobals topLevel cs).map (·.reword w)
  | [] => rfl
  | .mk _ _ body :: rest => by
      rw [Source.rewordCases, caseGlobals, caseGlobals, blockGlobals_reword body, caseGlobals_reword rest, map_append]

end

mutual

theorem stmtLabels_reword : ∀ s : Source.Stmt, stmtLabels (s.reword w) = (stmtLabels s).map w.ident
  | .label _ _ => rfl
  | .ifChain _ bs none => branchLabels_reword bs
  | .ifChain _ bs (some body) => by
      rw [Source.Stmt.reword, Source.rewordElse, stmtLabels, stmtLabels, branchLabels_reword bs,
        blockLabels_reword body, map_append]
  | .select _ _ cs => caseLabels_reword cs
  | .doLoop _ body | .whileLoop _ _ body | .repeatLoop _ body _ | .forLoop _ _ _ _ _ _ body => blockLabels_reword body
  | .declare _ _ | .assign _ _ _ _ | .call _ _ _ | .goto _ _ | .ret _ _ | .exitLoop _
  | .continueLoop _ | .fallthrough _ | .stop _ => rfl

theorem stmtsLabels_reword : ∀ body : List Source.Stmt,
    stmtsLabels (Source.rewordStmts w body) = (stmtsLabels body).map w.ident
  | [] => rfl
  | s :: rest => by
      rw [Source.rewordStmts, stmtsLabels, stmtsLabels, stmtLabels_reword s, stmtsLabels_reword rest, map_append]

theorem blockLabels_reword : ∀ body : Source.Block, blockLabels (body.reword w) = (blockLabels body).map w.ident
  | .mk _ body => stmtsLabels_reword body

theorem branchLabels_reword : ∀ bs : List Source.Branch,
    branchLabels (Source.rewordBranches w bs) = (branchLabels bs).map w.ident
  | [] => rfl
  | .mk _ body :: rest => by
      rw [Source.rewordBranches, branchLabels, branchLabels, blockLabels_reword body,
        branchLabels_reword rest, map_append]

theorem caseLabels_reword : ∀ cs : List Source.Case, caseLabels (Source.rewordCases w cs) = (caseLabels cs).map w.ident
  | [] => rfl
  | .mk _ _ body :: rest => by
      rw [Source.rewordCases, caseLabels, caseLabels, blockLabels_reword body, caseLabels_reword rest, map_append]

end

theorem programGlobals_reword (p : Source.Program) :
    programGlobals (p.reword w) = (programGlobals p).map (·.reword w) := by
  simp only [programGlobals, Source.Program.reword, stmtsGlobals_reword, map_append, flatMap_map,
    map_flatMap, Source.Function.reword, blockGlobals_reword]

theorem stmtsSpan_reword (body : List Source.Stmt) :
    stmtsSpan (Source.rewordStmts w body) = w.place (stmtsSpan body) := by
  rw [Source.rewordStmts_eq_map, stmtsSpan, head?_map, getLast?_map, stmtsSpan]
  cases body.head? with
  | none => exact w.place_none.symm
  | some first =>
    cases body.getLast? with
    | none => exact w.place_none.symm
    | some last => simp only [map_some, Source.Stmt.span_reword, w.place_join]

end Collected

/-! ## Functions and programs -/

namespace IgnoresCase

theorem withBody (body : Body) {check : Check α} (inside : IgnoresCase act check check') :
    IgnoresCase act (withBody body check) (withBody body check') :=
  bind get fun _ => andThen (change (fun _ => rfl) fun _ => rfl) fun _ => bind inside fun _ =>
    andThen (change (fun _ => rfl) fun _ => rfl) fun _ => pure rfl

theorem settleResult (function : FunctionId) (span : Span) :
    Alike (settleResult function span) (settleResult function span) := by
  refine bind (signature function span) fun sig => ?_
  rw [show sig.folded.result = sig.result from rfl]
  cases sig.result with
  | some result => exact pure rfl
  | none => exact andThen (setResult function .void) fun _ => pure rfl

theorem functionBody (analysed : Analysed analyse analyse') (function : FunctionId) (f : Source.Function) :
    IgnoresCase Function.folded (Check.functionBody analyse function f)
      (Check.functionBody analyse' function (f.reword caseless)) := by
  unfold Check.functionBody
  rw [show Check.blockLabels (f.reword caseless).body = _ from blockLabels_reword caseless f.body]
  refine andThen (labelsFrom _ 0) fun _ => andThen (block analysed f.body) fun body => ?_
  refine andThen (optional _ (returnValue analysed) f.endValue) fun endValue => ?_
  refine andThen (settleResult function f.span) fun result => bind get fun s => bind (signature function f.span) fun sig => ?_
  rw [show s.folded.body.bareReturn = s.body.bareReturn from rfl]
  cases s.body.bareReturn with
  | none => exact pure rfl
  | some span => exact ite failed (pure rfl)

theorem function (fs : List Source.Function) (depth : Nat) :
    Analysed (Check.function fs depth) (Check.function (fs.map (·.reword caseless)) depth) := by
  induction depth with
  | zero => exact fun _ => fail
  | succ depth ih =>
    intro function
    unfold Check.function
    rw [getElem?_map]
    cases fs[function]? with
    | none => exact fail
    | some f =>
      refine bind (signature function f.span) fun sig => andThen (modifySignature function fun _ => rfl) fun _ => ?_
      refine bind (withBody _ (functionBody ih function f)) fun typed => modifySignature function fun _ => rfl

theorem pendingFunctions (analysed : Analysed analyse analyse') (functions : List FunctionId) :
    Alike (pendingFunctions analyse functions) (pendingFunctions analyse' functions) := by
  induction functions with
  | nil => exact pure rfl
  | cons function rest ih =>
    refine bind (signature function Span.none) fun sig => ?_
    rw [show sig.folded.analysis.isPending = _ from isPending_folded sig.analysis]
    exact ite (andThen (analysed function) fun _ => ih) ih

theorem mainProgram (analysed : Analysed analyse analyse') (body : List Source.Stmt) :
    IgnoresCase Function.folded (Check.mainProgram analyse body)
      (Check.mainProgram analyse' (Source.rewordStmts caseless body)) := by
  unfold Check.mainProgram
  rw [stmtsLabels_reword, stmtsSpan_reword]
  refine andThen (pushScope none) fun scope => andThen (change (fun _ => rfl) fun _ => rfl) fun _ => ?_
  refine andThen (labelsFrom _ 0) fun _ => andThen (stmts analysed body) fun typed => bind get fun s => pure ?_
  simp only [Function.folded, show fold "main" = "main" by decide]
  rfl

theorem program (ctx : Context) (p : Source.Program) :
    IgnoresCase Program.folded (Check.program ctx p) (Check.program ctx.folded (p.reword caseless)) := by
  unfold Check.program
  rw [programGlobals_reword, show (p.reword caseless).functions = p.functions.map (·.reword caseless) from rfl,
    length_map]
  have analysed := function p.functions p.functions.length
  refine andThen (commandsFrom ctx.commands 0) fun _ => andThen (types p.types) fun _ => ?_
  refine andThen (functionsFrom p.functions 0) fun _ => andThen (globals (Check.programGlobals p)) fun _ => ?_
  refine andThen (pendingFunctions analysed _) fun _ => bind (mainProgram analysed p.stmts) fun main => ?_
  refine bind get fun s => pure ?_
  have functions : s.folded.signatures.filterMap (·.analysis.function?) =
      (s.signatures.filterMap (·.analysis.function?)).map Function.folded := by
    rw [map_filterMap, show s.folded.signatures = s.signatures.map Signature.folded from rfl, filterMap_map]
    exact congrArg (List.filterMap · s.signatures) (funext fun sig => function?_folded sig.analysis)
  rw [functions]
  rfl

end IgnoresCase

theorem check_caseless (ctx : Context) (p : Source.Program) :
    RulesAlike Program.folded (check ctx p) (check ctx.folded (p.reword caseless)) := by
  have start : (CheckState.start ctx.pointer ctx.memberAlign).folded =
      CheckState.start ctx.folded.pointer ctx.folded.memberAlign := rfl
  have run := IgnoresCase.program ctx p (CheckState.start ctx.pointer ctx.memberAlign)
  rw [start] at run
  refine .bind run fun r silent => ?_
  have silent : r.2.reports = [] := silent
  have silent' : r.2.folded.reports = [] := silent
  dsimp only
  rw [silent, silent']
  exact .ok r.1 trivial

end Typed

end BasicCompiler
