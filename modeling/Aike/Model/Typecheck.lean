import Aike.Model.Members

/-!
# `Aike.Model.Typecheck`: type inference and checking

The model of `compiler/typecheck.cpp`. A round of inference (`typeckPropagate`)
goes over the tree and collects constraints, then gives types to the identifiers
whose target is known, then rewrites the types on the tree with what it found.
The check (`typeckVerify`) goes over the tree once more without constraints and
reports what does not fit.

`type` has a constraint pointer that is null in the check, so the state has an
optional `TypeConstraints`.
-/

set_option autoImplicit false

namespace Aike

/-! ### Overloads -/

/-- `isArgumentCountValid`. -/
def isArgumentCountValid (params : List Ty) (varargs : Bool) (args : Nat) : Bool :=
  if varargs then decide (params.length ≤ args) else decide (params.length = args)

/-- `isCandidateValid`, on the type of the target. Arguments beyond the
parameters of a vararg function are not looked at. The last case is the one the
source excludes by an assertion. -/
def isCandidateValid (target : Ty) (args : List Ty) : Bool :=
  match target with
  | .function params _ varargs =>
      isArgumentCountValid params varargs args.length && (typeUnifyAll params args {}).1
  | _ => false

/-- `reduceCandidates`: how many targets were dropped, and the targets left. -/
def reduceCandidates (varType : VarId → Ty) (targets : List Variable) (args : List Ty) :
    Nat × List Variable :=
  let left := targets.filter fun target => isCandidateValid (varType target.id) args
  (targets.length - left.length, left)

/-! ### The state of a pass -/

/-- What `type` works on: the tree's types, the constraints (none when the
pointer is null) and the errors reported so far. -/
structure Typeck where
  store : Store
  constraints : Option TypeConstraints
  output : List Diagnostic := []

/-- A step of the pass. -/
abbrev TypeckM := StateT Typeck (Except Fault)

namespace Typeck

/-- `output.error`. -/
def error (location : Location) (message : Str) : TypeckM Unit :=
  modify fun s => { s with output := s.output ++ [⟨location, message⟩] }

/-- `!constraints`. -/
def verifying : TypeckM Bool := do return (← get).constraints.isNone

/-- `UNION_NEW(Ty, Unknown, {})`. -/
def newUnknown : TypeckM Ty := do
  let s ← get
  let u := s.store.nextUnknown
  set { s with store := { s.store with nextUnknown := u + 1 } }
  return .unknown u

/-- `UNION_NEW(Ty, Unknown, {})`, for every element of a list. -/
def newUnknowns (count : Nat) : TypeckM (List Ty) := do
  let s ← get
  let (ts, store) := s.store.freshUnknowns count
  set { s with store := store }
  return ts

/-- `astType(node)`, which is followed: it is an error to have none. -/
def astType (node : Ast) : TypeckM Ty := do
  match (← get).store.astType node.node.id with
  | some t => return t
  | none => throw .assertion

/-- `n->type = type`. -/
def setType (n : Node) (type : Ty) : TypeckM Unit :=
  modify fun s => { s with store := s.store.setNodeType n.id type }

/-- `if (!n->type) n->type = type`. -/
def initType (n : Node) (type : Ty) : TypeckM Unit := do
  if ((← get).store.nodeType n.id).isNone then setType n type

/-- `if (!n->type) n->type = UNION_NEW(Ty, Unknown, {})`. -/
def initUnknown (n : Node) : TypeckM Unit := do
  if ((← get).store.nodeType n.id).isNone then
    let t ← newUnknown
    setType n t

/-- `typeMustKnow`. -/
def typeMustKnow (type : Ty) (location : Location) : TypeckM Unit := do
  let s ← get
  if !typeKnown type && s.output.length == 0 then
    error location ("Expected a known type but given ".toList ++ typeName type)

/-- `typeMustEqual`, on types. -/
def typeMustEqual (type expected : Ty) (location : Location) : TypeckM Unit := do
  let s ← get
  match s.constraints with
  | some constraints =>
      set { s with constraints := some (typeUnify type expected constraints).2 }
  | none =>
      if !typeEquals type expected then
        error location ("Type mismatch: expected ".toList ++ typeName expected
          ++ " but given ".toList ++ typeName type)
      typeMustKnow type location

/-- `typeMustEqual`, on a node. -/
def nodeMustEqual (node : Ast) (expected : Ty) : TypeckM Unit := do
  let type ← astType node
  typeMustEqual type expected node.node.location

/-- The loop of `validateLiteralStruct` over the initializers: which fields have
one, and the errors. -/
def validateInitializers : List FieldRef → List Bool → TypeckM (List Bool)
  | [], fields => return fields
  | f :: fs, fields => do
      let index := (← get).store.fieldIndex f.id
      if index < 0 then throw .assertion
      match fields[index.toNat]? with
      | none => throw .assertion
      | some true => do
          error f.location ("Field ".toList ++ f.name ++ " already has an initializer".toList)
          validateInitializers fs fields
      | some false => validateInitializers fs (fields.set index.toNat true)

/-- The loop of `validateLiteralStruct` over the fields. -/
def validateFields (location : Location) :
    List (FieldDecl × Option Ast) → List Bool → TypeckM Unit
  | f :: fs, initialized :: fields => do
      if !initialized && f.2.isNone then
        error location ("Field ".toList ++ f.1.name ++ " does not have an initializer".toList)
      validateFields location fs fields
  | _, _ => return

/-- `validateLiteralStruct`. -/
def validateLiteralStruct (program : Program) (n : Node) (node : Ast) (fields : List FieldRef) :
    TypeckM Unit := do
  let type ← astType node
  match type with
  | .inst _ _ (.struct d) =>
      match program.tyDef d with
      | some tydef => do
          let initialized ← validateInitializers fields (tydef.fields.map fun _ => false)
          validateFields n.location tydef.fields initialized
      | none => throw .nullDefinition
  | .inst _ _ _ => throw .nullDefinition
  | type =>
      error n.location ("Type mismatch: expected a struct type but given ".toList ++ typeName type)

/-- A number as text. -/
def decimal (n : Nat) : Str := Nat.toDigits 10 n

/-- `getCandidates`. -/
def getCandidates (store : Store) (targets : List Variable) : Str :=
  let line (v : Variable) : Str :=
    "\tCandidate: ".toList ++ typeName (store.variableType v.id) ++ "; declared at ".toList
      ++ v.location.source ++ "(".toList ++ decimal (v.location.line + 1) ++ ",".toList
      ++ (toString (v.location.column + 1)).toList ++ ")".toList
  List.intercalate "\n".toList (targets.map line)

/-- `isAssignable`. -/
def isAssignable (store : Store) : Ast → Bool
  | .ident n _ =>
      match store.targets n.id with
      | [target] => target.kind = .variable
      | _ => false
  | .member _ expr _ => isAssignable store expr
  | .index _ _ _ => true
  | .unary _ op _ => op = .deref
  | _ => false

/-! ### One function for each kind of node

Each is what `type##name` does after the children were visited, or between. -/

/-- `typeIdent`. -/
def typeIdent (n : Node) (name : Str) : TypeckM Unit := do
  initUnknown n
  if ← verifying then
    let s ← get
    let targets := s.store.targets n.id
    if targets.length = 0 then
      error n.location ("Unable to deduce the type of ".toList ++ name)
    if targets.length > 1 then
      error n.location ("Ambiguous identifier ".toList ++ name ++ "\n".toList
        ++ getCandidates s.store targets)
    let tyargs := Ty.viewAll s.store.fills (s.store.identTyargs n.id)
    for a in tyargs do
      if !typeKnown a then
        error n.location ("Unable to instantiate ".toList ++ name ++ "<".toList
          ++ typeNames tyargs ++ ">: all argument types must be known".toList)

/-- `typeMember`, on a node. -/
def typeMemberNode (program : Program) (n : Node) (expr : Ast) (field : FieldRef) :
    TypeckM Unit := do
  initUnknown n
  let exprty ← astType expr
  let s ← get
  let index := s.store.fieldIndex field.id
  if index ≥ 0 then
    match typeMember program s.store exprty index with
    | .ok type => setType n type
    | .error fault => throw fault
  else if ← verifying then
    error expr.node.location
      (typeName exprty ++ " does not have a field ".toList ++ field.name)

/-- The initializer of a field of a struct literal, after it was visited. -/
def typeInitializer (program : Program) (n : Ast) (f : FieldRef) (expr : Ast) : TypeckM Unit := do
  let s ← get
  let index := s.store.fieldIndex f.id
  if index ≥ 0 then
    let type ← astType n
    match typeMember program s.store type index with
    | .ok expected => nodeMustEqual expr expected
    | .error fault => throw fault

/-- The types of some nodes. -/
def astTypes : List Ast → TypeckM (List Ty)
  | [] => return []
  | a :: as => do
      let t ← astType a
      let ts ← astTypes as
      return t :: ts

/-- `typeMustEqual` on nodes and expected types one by one, up to the shorter
list. -/
def nodesMustEqual : List Ast → List Ty → TypeckM Unit
  | a :: as, t :: ts => do
      nodeMustEqual a t
      nodesMustEqual as ts
  | _, _ => return

/-- The overload part of `typeCall`. -/
def typeOverloads (expr : Ast) (args : List Ast) : TypeckM Unit := do
  match expr with
  | .ident ne _ => do
      let s ← get
      match s.constraints with
      | some constraints =>
          let targets := s.store.targets ne.id
          if targets.length > 1 then
            let types ← astTypes args
            let (dropped, left) := reduceCandidates s.store.variableType targets types
            set { s with
              store := { s.store with targets := update s.store.targets ne.id left }
              constraints := some { constraints with rewrites := constraints.rewrites + dropped } }
      | none => return
  | _ => return

/-- `typeCall`, after the children were visited. -/
def typeCall (n : Node) (expr : Ast) (args : List Ast) : TypeckM Unit := do
  typeOverloads expr args
  let exprty ← astType expr
  match exprty with
  | .function params ret varargs => do
      if isArgumentCountValid params varargs args.length then
        nodesMustEqual args params
      else if ← verifying then
        error n.location ("Expected ".toList ++ decimal params.length
          ++ " arguments but given ".toList ++ decimal args.length)
      setType n ret
  | _ => do
      let types ← astTypes args
      let ret ← newUnknown
      nodeMustEqual expr (.function types ret false)
      setType n ret

/-- `typeUnary`, after the child was visited. -/
def typeUnary (n : Node) (op : UnaryOp) (expr : Ast) : TypeckM Unit := do
  match op with
  | .not => do
      setType n .bool
      nodeMustEqual expr .bool
  | .deref => do
      let exprty ← astType expr
      match exprty with
      | .pointer element => setType n element
      | _ => do
          let element ← newUnknown
          setType n element
          nodeMustEqual expr (.pointer element)
  | .new => do
      let exprty ← astType expr
      setType n (.pointer exprty)
  | _ => throw .internalError

/-- `typeBinary`, after the children were visited. -/
def typeBinary (n : Node) (op : BinaryOp) (left right : Ast) : TypeckM Unit := do
  if op = .and ∨ op = .or then
    setType n .bool
    nodeMustEqual left .bool
    nodeMustEqual right .bool
  else throw .internalError

/-- `typeIndex`, after the children were visited. -/
def typeIndex (n : Node) (expr idx : Ast) : TypeckM Unit := do
  nodeMustEqual idx .integer
  let exprty ← astType expr
  match exprty with
  | .array element => setType n element
  | _ => do
      let element ← newUnknown
      nodeMustEqual expr (.array element)
      setType n element

/-- `typeAssign`, after the children were visited. -/
def typeAssign (n : Node) (left right : Ast) : TypeckM Unit := do
  let leftty ← astType left
  nodeMustEqual right leftty
  let s ← get
  if !isAssignable s.store left && s.constraints.isNone then
    error n.location "Expression is not assignable".toList
  initType n .void

/-- `typeFor`, after the children were visited. -/
def typeFor (n : Node) (var : Variable) (index : Option Variable) (expr body : Ast) :
    TypeckM Unit := do
  let element := (← get).store.variableType var.id
  nodeMustEqual expr (.array element)
  nodeMustEqual body .void
  match index with
  | some index => do
      let type := (← get).store.variableType index.id
      typeMustEqual type .integer index.location
  | none => pure ()
  initType n .void

/-- `typeWhile`, after the children were visited. -/
def typeWhile (n : Node) (expr body : Ast) : TypeckM Unit := do
  nodeMustEqual expr .bool
  nodeMustEqual body .void
  initType n .void

/-- `typeFnDecl` on a function with a body, after it was visited. -/
def typeFnBody (var : Variable) (body : Ast) : TypeckM Unit := do
  match (← get).store.variableType var.id with
  | .function _ ret _ => if ret ≠ .void then nodeMustEqual body ret
  | _ => throw .internalError

/-- `typeFnDecl` on a function without a body. -/
def typeFnSignature (var : Variable) : TypeckM Unit := do
  if ← verifying then
    let type := (← get).store.variableType var.id
    typeMustKnow type var.location

/-- The element types of a literal that has none yet. -/
def initLiteralTuple (n : Node) (count : Nat) : TypeckM Unit := do
  if ((← get).store.nodeType n.id).isNone then
    let fields ← newUnknowns count
    setType n (.tuple fields)

/-- The element type of a literal that has none yet. -/
def initLiteralArray (n : Node) : TypeckM Unit := do
  if ((← get).store.nodeType n.id).isNone then
    let element ← newUnknown
    setType n (.array element)

mutual

/-- `type`. -/
def type (program : Program) : Ast → TypeckM Unit
  | .literalVoid n => initType n .void
  | .literalBool n _ => initType n .bool
  | .literalInteger n _ => initType n .integer
  | .literalFloat n _ => initType n .float
  | .literalString n _ => initType n .string
  | root@(.literalTuple n fields) => do
      initLiteralTuple n fields.length
      match ← astType root with
      | .tuple types => typeElements program fields types
      | _ => throw .assertion
  | root@(.literalArray n elements) => do
      initLiteralArray n
      match ← astType root with
      | .array element => typeElements program elements (elements.map fun _ => element)
      | _ => throw .assertion
  | root@(.literalStruct n _ fields) => do
      initUnknown n
      typeInitializers program root fields
      if ← verifying then validateLiteralStruct program n root (fields.map Prod.fst)
  | .ident n name => typeIdent n name
  | .member n expr field => do
      type program expr
      typeMemberNode program n expr field
  | .block n body => do
      typeAll program body
      match body.getLast? with
      | none => setType n .void
      | some last => do
          let lastty ← astType last
          setType n lastty
  | .module n _ body _ => do
      type program body
      let bodyty ← astType body
      setType n bodyty
  | .call n expr args => do
      type program expr
      typeAll program args
      typeCall n expr args
  | .unary n op expr => do
      type program expr
      typeUnary n op expr
  | .binary n op left right => do
      type program left
      type program right
      typeBinary n op left right
  | .index n expr idx => do
      type program expr
      type program idx
      typeIndex n expr idx
  | .assign n left right => do
      type program left
      type program right
      typeAssign n left right
  | .ifThen n cond thenbody => do
      type program cond
      nodeMustEqual cond .bool
      type program thenbody
      nodeMustEqual thenbody .void
      let thenty ← astType thenbody
      setType n thenty
  | .ifElse n cond thenbody elsebody => do
      type program cond
      nodeMustEqual cond .bool
      type program thenbody
      type program elsebody
      let thenty ← astType thenbody
      nodeMustEqual elsebody thenty
      setType n thenty
  | .forIn n var index expr body => do
      type program expr
      type program body
      typeFor n var index expr body
  | .while n expr body => do
      type program expr
      type program body
      typeWhile n expr body
  | .fn n _ decl => do
      type program decl
      match decl with
      | .fnDecl _ var _ _ _ _ => do
          let declty := (← get).store.variableType var.id
          setType n declty
      | _ => throw .assertion
  | .llvm n _ => initUnknown n
  | .fnDecl n var _ _ _ body => do
      match body with
      | some body => do
          type program body
          typeFnBody var body
      | none => typeFnSignature var
      initType n .void
  | .varDecl n var expr => do
      type program expr
      let varty := (← get).store.variableType var.id
      nodeMustEqual expr varty
      initType n .void
  | .tyDecl n _ d _ fields => do
      let types := Ty.viewAll (← get).store.fills ((← get).store.fieldTypes d)
      typeDefaults program fields types
      initType n .void
  | .import n _ => initType n .void

/-- `type` on every tree of a list. -/
def typeAll (program : Program) : List Ast → TypeckM Unit
  | [] => return
  | c :: cs => do
      type program c
      typeAll program cs

/-- The loops of `typeLiteralTuple` and `typeLiteralArray`. -/
def typeElements (program : Program) : List Ast → List Ty → TypeckM Unit
  | [], _ => return
  | c :: cs, t :: ts => do
      type program c
      nodeMustEqual c t
      typeElements program cs ts
  | _ :: _, [] => throw .assertion

/-- The loop of `typeLiteralStruct`. -/
def typeInitializers (program : Program) (n : Ast) : List (FieldRef × Ast) → TypeckM Unit
  | [] => return
  | c :: cs => do
      type program c.2
      typeInitializer program n c.1 c.2
      typeInitializers program n cs

/-- One field of the loop of `typeTyDecl`. -/
def typeDefault (program : Program) : Option Ast → Ty → TypeckM Unit
  | none, _ => return
  | some c, t => do
      type program c
      nodeMustEqual c t

/-- The loop of `typeTyDecl`. -/
def typeDefaults (program : Program) : List (FieldDecl × Option Ast) → List Ty → TypeckM Unit
  | c :: cs, t :: ts => do
      typeDefault program c.2 t
      typeDefaults program cs ts
  | _, _ => return

end

/-! ### A round -/

/-- `instantiateType`: an `Instance` of a struct without type arguments gets an
`Unknown` for each of them, on its node. -/
def instantiateType (program : Program) (t : Ty) : TypeckM Unit := do
  match t with
  | .inst node tyargs (.struct d) =>
      match program.tyDef d with
      | none => throw .assertion
      | some tydef =>
          -- An earlier visit of the same node may have pushed the arguments.
          let s ← get
          match (Ty.inst node tyargs (.struct d)).view s.store.fills with
          | .inst _ [] _ => do
              let fresh ← newUnknowns tydef.tyargs.length
              modify fun s =>
                { s with store := { s.store with fills := update s.store.fills node.addr fresh } }
          | .inst _ tyargs _ =>
              if tyargs.length ≠ tydef.tyargs.length then
                error node.location ("Expected ".toList ++ decimal tydef.tyargs.length
                  ++ " type arguments but given ".toList ++ decimal tyargs.length)
          | _ => return
  | .inst node tyargs (.generic _) =>
      if tyargs.length ≠ 0 then
        error node.location
          ("Expected 0 type arguments but given ".toList ++ decimal tyargs.length)
  | .inst _ _ .unresolved => throw .assertion
  | _ => return

/-- `visitAstTypes`: the types that are written on a node. -/
def visitAstTypes (store : Store) (node : Ast) : List Ty :=
  (store.nodeType node.node.id).toList ++
    match node with
    | .ident n _ => store.identTyargs n.id
    | .forIn _ var index _ _ => store.varType var.id ::
        (index.map fun i => store.varType i.id).toList
    | .fnDecl _ var _ _ _ _ => [store.varType var.id]
    | .varDecl _ var _ => [store.varType var.id]
    | .tyDecl _ _ d _ _ => store.fieldTypes d
    | _ => []

/-- The part of `instantiateNode` that sets the type arguments of an identifier
whose one target is a function. -/
def instantiateTyargs (n : Node) (decl : FnDecl) : TypeckM Unit := do
  let s ← get
  let tyargs := s.store.identTyargs n.id
  if tyargs.length = 0 then
    let fresh ← newUnknowns decl.tyargs.length
    modify fun s => { s with store := s.store.setIdentTyargs n.id fresh }
  else if tyargs.length ≠ decl.tyargs.length then
    error n.location ("Expected ".toList ++ decimal decl.tyargs.length
      ++ " type arguments but given ".toList ++ decimal tyargs.length)

/-- The end of `instantiateNode`: the identifier has its type. -/
def markResolved (n : Node) (t : Ty) : TypeckM Unit := do
  setType n t
  modify fun s =>
    { s with
      store := { s.store with resolved := update s.store.resolved n.id true }
      constraints := s.constraints.map fun c => { c with rewrites := c.rewrites + 1 } }

/-- `instantiateNode` on an identifier. -/
def instantiateIdent (program : Program) (n : Node) : TypeckM Unit := do
  let s ← get
  if s.store.resolved n.id then return
  match s.store.targets n.id with
  | [var] =>
      if var.kind = .function then
        match var.fn.bind program.fnDecl with
        | none => throw .assertion
        | some decl => do
            instantiateTyargs n decl
            let s ← get
            let tyargs := Ty.viewAll s.store.fills (s.store.identTyargs n.id)
            let varty := s.store.variableType var.id
            if tyargs.length > 0 then
              -- An `Unknown` in the type of the function may later be bound to a
              -- type parameter of it.
              if !typeKnown varty then return
              markResolved n (typeInstantiate (tyargOf decl.tyargs tyargs) varty)
            else markResolved n varty
      else markResolved n (s.store.variableType var.id)
  | _ => return

/-- `instantiateNode`. -/
def instantiateNode (program : Program) (node : Ast) : TypeckM Unit := do
  let s ← get
  for t in visitAstTypes s.store node do
    instantiateType program t
  match node with
  | .ident n _ => instantiateIdent program n
  | _ => return

/-- `constraints.rewrite(type)`. The types in the constraints are read now, after
`instantiateType` pushed type arguments on their nodes. -/
def rewrite (fuel : Nat) (t : Ty) : TypeckM Ty := do
  let s ← get
  match s.constraints with
  | none => throw .assertion
  | some constraints =>
      match (constraints.view s.store.fills).rewrite fuel t with
      | none => throw .outOfFuel
      | some (t, constraints) => do
          set { s with constraints := some constraints }
          return t

/-- `n->type = constraints.rewrite(n->type)`. -/
def rewriteNodeType (fuel : Nat) (node : Ast) : TypeckM Unit := do
  let t ← astType node
  let t ← rewrite fuel t
  setType node.node t

/-- `var->type = constraints.rewrite(var->type)`. -/
def rewriteVarType (fuel : Nat) (v : Variable) : TypeckM Unit := do
  let t ← rewrite fuel ((← get).store.variableType v.id)
  modify fun s => { s with store := s.store.setVarType v.id t }

/-- The rewritten types of a list. -/
def rewriteTypes (fuel : Nat) : List Ty → TypeckM (List Ty)
  | [] => return []
  | t :: ts => do
      let t ← rewrite fuel t
      let ts ← rewriteTypes fuel ts
      return t :: ts

/-- `propagate`. -/
def propagate (fuel : Nat) (root : Ast) : TypeckM Unit := do
  match root with
  | .literalTuple _ _ | .literalArray _ _ | .literalStruct _ _ _ | .llvm _ _ =>
      rewriteNodeType fuel root
  | .ident n _ => do
      if ((← get).store.nodeType n.id).isSome then rewriteNodeType fuel root
      let s ← get
      let tyargs ← rewriteTypes fuel (Ty.viewAll s.store.fills (s.store.identTyargs n.id))
      modify fun s => { s with store := s.store.setIdentTyargs n.id tyargs }
  | .forIn _ var index _ _ => do
      rewriteVarType fuel var
      match index with
      | some index => rewriteVarType fuel index
      | none => return
  | .fnDecl _ var _ args _ _ => do
      rewriteVarType fuel var
      for arg in args do
        rewriteVarType fuel arg
  | .varDecl _ var _ => rewriteVarType fuel var
  | _ => return

/-- A callback on every node that `visitAst` visits. -/
def visit (f : Ast → TypeckM Unit) : List Ast → TypeckM Unit
  | [] => return
  | node :: nodes => do
      f node
      visit f nodes

/-- The body of `typeckPropagate`. -/
def propagateRound (fuel : Nat) (program : Program) (root : Ast) : TypeckM Unit := do
  type program root
  visit (instantiateNode program) (visitAst root)
  match (← get).constraints with
  | some constraints => if constraints.data ≠ [] then visit (propagate fuel) (visitAst root)
  | none => throw .assertion

/-- `verifyNode`. -/
def verifyNode (node : Ast) : TypeckM Unit := do
  let s ← get
  for t in visitAstTypes s.store node do
    typeMustKnow (t.view s.store.fills) node.node.location

/-- The body of `typeckVerify`. -/
def verify (program : Program) (root : Ast) : TypeckM Unit := do
  type program root
  visit verifyNode (visitAst root)

end Typeck

/-- `typeckPropagate`: the store and the errors after a round, and how much
changed in it. -/
def typeckPropagate (fuel : Nat) (program : Program) (store : Store) (root : Ast) :
    Except Fault (Store × List Diagnostic × Nat) := do
  let (_, s) ← (Typeck.propagateRound fuel program root).run
    { store := store, constraints := some {} }
  return (s.store, s.output, (s.constraints.map TypeConstraints.rewrites).getD 0)

/-- `typeckVerify`: the store after the check, and the errors. -/
def typeckVerify (program : Program) (store : Store) (root : Ast) :
    Except Fault (Store × List Diagnostic) := do
  let (_, s) ← (Typeck.verify program root).run { store := store, constraints := none }
  return (s.store, s.output)

end Aike
