import TypedScript.Binding.Flow
import TypedScript.Binding.Stmt

/-!
# Binding programs

Declarations are entered before any body is bound: first the imports, then the signatures of the
functions, then the global variables with their initial values. So a body may call functions that
come later and read any global variable, and an initial value sees the global variables before it.
-/

namespace TypedScript
namespace Binder

open TypedScript.Bound TypedScript.Binding

/-- The global group of overloads with a name, which is made at its first use. -/
def localGroup (name : String) (span : Span) : Binder (Option TypeId) := do
  match (← get).scope.outermost.find? name with
  | some sym =>
    if sym.kind = .overloads then return some sym.type
    else
      complain span (.alreadyDeclared name)
      return none
  | none =>
    let group ← register fun r => .ok (r.newGroup name "")
    let _ ← declareGlobal (← newSymbol name .overloads group true)
    return some group

def adoptAll (group : TypeId) : List TypeId → Binder Unit
  | [] => return
  | c :: rest => do
    register fun r => return ((), ← r.adopt group c)
    adoptAll group rest

def matching (params : List TypeId) (result? : Option TypeId) :
    List TypeId → Binder (List TypeId)
  | [] => return []
  | c :: rest => do
    let info ← ask (·.callable c)
    let found ← matching params result? rest
    if info.params = params && result?.all (· = info.result) then return c :: found
    else return found

def importedOverloads (i : Parsed.Import) (group : TypeId) : Binder (Option (List TypeId)) := do
  let members ← ask (·.members group)
  if !i.hasSignature then return some members
  let params ← i.params.mapM resolveType
  let result? ← i.result?.mapM resolveType
  let found ← matching params result? members
  let signature := "(" ++ (← ask (·.joinNames params)) ++ ")"
  match found with
  | [] =>
    complain i.span (.noSuchOverload i.qualified signature)
    return none
  | [_] => return some found
  | _ =>
    complain i.span (.severalOverloads i.qualified signature found.length)
    return none

def bindImport (i : Parsed.Import) : Binder Unit := do
  let library := (← get).library
  match library.field? i.qualified, library.group? i.qualified with
  | some field, _ =>
    if i.hasSignature then complain i.span (.signatureOfField i.qualified)
    else
      let sym ← newSymbol i.localName (.libraryField field.path) field.type field.readonly
      if !(← declareGlobal sym) then complain i.span (.alreadyDeclared i.localName)
  | none, some group =>
    let some members ← importedOverloads i group | return
    let some own ← localGroup i.localName i.span | return
    adoptAll own members
  | none, none => complain i.span (.unknownLibraryName i.qualified)

/-- A function whose signature is entered. -/
structure Pending where
  function : Parsed.Function
  callable : TypeId
  params : List TypeId
  result : TypeId

def hasOverload (params : List TypeId) : List TypeId → Binder Bool
  | [] => return false
  | c :: rest => do
    if (← ask (·.callable c)).params = params then return true else hasOverload params rest

def declareFunction (f : Parsed.Function) : Binder (Option Pending) := do
  let params ← f.params.mapM fun p => valueType p.type
  let result ← match f.result? with
    | some t => resolveType t
    | none => pure (.builtin .void)
  let some group ← localGroup f.name f.span | return none
  if ← hasOverload params (← ask (·.members group)) then
    complain f.span (.functionDeclared f.name (← ask (·.joinNames params)))
    return none
  else
    let callable ← register (·.addCallable ⟨group, result, params, none⟩)
    return some ⟨f, callable, params, result⟩

/-- Warns about the local variables that are never read. -/
def complainUnused : Binder Unit := do
  let context := (← get).context
  context.locals.toList.forM fun (sym, span) => do
    if !context.reads.contains sym.id && sym.name != "_" then
      complain span (.unusedLocal sym.name)

def inRoutine {α : Type} (result : TypeId) (body : Binder α) : Binder α := do
  let saved := (← get).context
  modify fun s => { s with context := ⟨result, 0, #[], []⟩ }
  let a ← inScope .function body
  complainUnused
  modify fun s => { s with context := saved }
  return a

/-- Warns about statements that are never executed. -/
def complainUnreachable (body : List Stmt) : Binder Unit :=
  (unreachableAfter false body).forM fun span => complain span .unreachableCode

def bindParams (index : Nat) : List Parsed.Param → List TypeId → Binder (List Symbol)
  | p :: ps, t :: ts => do
    let sym ← newSymbol p.name (.parameter index) t true
    if !(← declare sym) then complain p.span (.alreadyDeclared p.name)
    return sym :: (← bindParams (index + 1) ps ts)
  | _, _ => return []

/-- Binds a function. Its body shares the scope of its parameters. -/
def bindFunction (p : Pending) : Binder Routine :=
  inRoutine p.result do
    let f := p.function
    let params ← bindParams 0 f.params p.params
    let body ← bindStmts f.body
    complainUnreachable body
    if p.result ≠ .builtin .void && p.result ≠ .error && allComplete body then
      complain f.span (.missingReturn f.name)
    return ⟨f.span, f.name, p.callable, params, p.result, f.bodySpan, body⟩

/-- Binds the global variables. What is returned are their symbols and the statements that set
them. -/
def bindGlobals : List Parsed.Declaration → Binder (List Symbol × List Stmt)
  | [] => return ([], [])
  | d :: rest => do
    let (type, value?) ← bindDeclaration d
    let sym ← newSymbol d.name .globalVariable type d.isConst
    if ← declareGlobal sym then
      let (syms, stmts) ← bindGlobals rest
      let set := value?.map fun v => Stmt.eval ⟨d.span, .assign d.span (.symbol d.span sym) v⟩
      return (sym :: syms, set.toList ++ stmts)
    else
      complain d.span (.alreadyDeclared d.name)
      bindGlobals rest

def bindInitializer (f : Parsed.File) : Binder (List Symbol × Routine) :=
  inRoutine (.builtin .void) do
    let (globals, body) ← bindGlobals f.globals
    return (globals, ⟨f.span, initializerName, .absent, [], .builtin .void, f.span, body⟩)

def bindScript (f : Parsed.File) : Binder Routine :=
  inRoutine (.builtin .void) do
    let body ← bindStmts f.statements
    complainUnreachable body
    return ⟨f.span, scriptName, .absent, [], .builtin .void, f.span, body⟩

def bindProgram (f : Parsed.File) : Binder Program := do
  f.imports.forM bindImport
  let pending ← f.functions.filterMapM declareFunction
  let (globals, initializer) ← bindInitializer f
  let functions ← pending.mapM bindFunction
  let script? ← if f.statements.isEmpty then pure none else some <$> bindScript f
  return ⟨globals, initializer, functions, script?⟩

end Binder
end TypedScript
