import Aike.Model.Codegen.Expr
import Aike.Model.Execute

/-!
# `Aike.Model.Structured`: structured evaluation

What a tree means by itself, without the blocks that it is lowered to: this is the
statement of the purpose of the lowering, and not translated from the source. It
covers trees of integer and boolean values, variables, assignments, calls of functions
by name, blocks, `and`, `or`, `not`, conditionals and `while`.

`and` and `or` evaluate their right operand only when the left one does not decide,
and are the left operand when it does. A loop runs for a number of rounds (`fuel`),
and the evaluation answers nothing when a loop does not end within them.
-/

set_option autoImplicit false

namespace Aike

/-- What the meaning of a tree depends on: the targets of identifiers, the function
that a name leads to, whether that has a result, and the world. -/
structure EvalContext where
  store : Store
  callee : NodeId → Option FunctionId
  returns : FunctionId → Bool
  world : World

/-- The values of variables, and the calls that were made. -/
structure EvalState where
  vars : VarId → Val
  calls : List CallEvent

/-- A loop with a given condition and body. -/
def evalWhile (cond body : EvalState → Option (Val × EvalState)) :
    Nat → EvalState → Option EvalState
  | 0, _ => none
  | rounds + 1, s => do
      let (test, s) ← cond s
      if test.isTrue then do
        let (_, s) ← body s
        evalWhile cond body rounds s
      else return s

namespace EvalContext

variable (c : EvalContext) (fuel : Nat)

/-- A call: it is seen, and the world answers. -/
def call (s : EvalState) (f : FunctionId) (args : List Val) : Val × EvalState :=
  let calls := s.calls ++ [⟨f, args⟩]
  (if c.returns f then c.world calls else .void, { s with calls })

mutual

/-- The value of a tree, and the state after it. -/
def eval : Ast → EvalState → Option (Val × EvalState)
  | .literalVoid _, s => some (.void, s)
  | .literalBool _ value, s => some (.bool value, s)
  | .literalInteger _ value, s => some (.int (BitVec.ofInt 32 value), s)
  | .ident n _, s =>
      match c.store.targets n.id with
      | [target] => some (s.vars target.id, s)
      | _ => none
  | .block _ body, s => evalBlock .void body s
  | .call _ (.ident n _) args, s => do
      let f ← c.callee n.id
      let (args, s) ← evalArgs args s
      return c.call s f args
  | .unary _ .not expr, s => do
      let (value, s) ← eval expr s
      return (value.not, s)
  | .binary _ .and left right, s => do
      let (value, s) ← eval left s
      if value.isTrue then eval right s else return (value, s)
  | .binary _ .or left right, s => do
      let (value, s) ← eval left s
      if value.isTrue then return (value, s) else eval right s
  | .assign _ (.ident n _) right, s =>
      match c.store.targets n.id with
      | [target] => do
          let (value, s) ← eval right s
          return (.void, { s with vars := update s.vars target.id value })
      | _ => none
  | .varDecl _ var expr, s => do
      let (value, s) ← eval expr s
      return (.void, { s with vars := update s.vars var.id value })
  | .ifThen _ cond thenbody, s => do
      let (test, s) ← eval cond s
      if test.isTrue then do
        let (_, s) ← eval thenbody s
        return (.void, s)
      else return (.void, s)
  | .ifElse _ cond thenbody elsebody, s => do
      let (test, s) ← eval cond s
      if test.isTrue then eval thenbody s else eval elsebody s
  | .while _ expr body, s => do
      let s ← evalWhile (eval expr) (eval body) fuel s
      return (.void, s)
  | _, _ => none

/-- The trees of a block one after the other. The value is that of the last one. -/
def evalBlock (value : Val) : List Ast → EvalState → Option (Val × EvalState)
  | [], s => some (value, s)
  | e :: body, s => do
      let (value, s) ← eval e s
      evalBlock value body s

/-- The arguments of a call, in order. -/
def evalArgs : List Ast → EvalState → Option (List Val × EvalState)
  | [], s => some ([], s)
  | a :: args, s => do
      let (value, s) ← eval a s
      let (values, s) ← evalArgs args s
      return (value :: values, s)

end

end EvalContext

/-- The function that the name of a node leads to: what `codegenIdent` answers when it
is asked in the state. -/
def Codegen.callee (cx : CodegenContext) (s : Codegen) (n : NodeId) : Option FunctionId :=
  match codegenIdent cx { id := n } .value s with
  | .ok (⟨_, .function f⟩, _) => some f
  | _ => none

/-- Whether a function of the module has a result. -/
def Codegen.returns (s : Codegen) (f : FunctionId) : Bool :=
  match s.functions[f]? with
  | some fun_ => !fun_.ret.isVoid
  | none => false

/-- The meaning of trees in a module, with the function that is under construction. -/
def Codegen.evalContext (cx : CodegenContext) (s : Codegen) (world : World) : EvalContext where
  store := cx.store
  callee := s.callee cx
  returns := s.returns
  world := world

/-! ### Trees -/

/-- The variables in scope: those with storage, which can be assigned, and those
that are values, as arguments are. -/
structure TreeScope where
  stored : List VarId
  values : List VarId

/-- A variable with storage comes into scope. -/
def TreeScope.declare (g : TreeScope) (x : VarId) : TreeScope := { g with stored := x :: g.stored }

/-- An identifier that names a variable in scope. -/
structure Store.Reads (store : Store) (g : TreeScope) (n : Node) (var : Variable) : Prop where
  targets : store.targets n.id = [var]
  stored : var.kind = .variable → var.id ∈ g.stored
  values : var.kind = .argument ∨ var.kind = .value → var.id ∈ g.values
  kind : var.kind ≠ .function

/-- An identifier that names a function with a fixed number of parameters. -/
structure EvalContext.Names (c : EvalContext) (n : Node) (f : FunctionId) (params : Nat) :
    Prop where
  callee : c.callee n.id = some f
  targets : ∃ var, c.store.targets n.id = [var] ∧ var.kind = .function
  type : ∃ types ret, c.store.astType n.id = some (.function types ret false) ∧
    types.length = params

mutual

/-- `Structured c g e h g'`: the tree `e` is one of those that `EvalContext.eval` gives
a meaning to. It reads and assigns variables in scope (`g`), the scope after it is
`g'`, and it has a value when `h` is true. The two branches of a conditional agree on
that, and operands, conditions and arguments have a value. -/
inductive EvalContext.Structured (c : EvalContext) :
    TreeScope → Ast → Bool → TreeScope → Prop
  | literalVoid (g n) : Structured c g (.literalVoid n) false g
  | literalBool (g n value) : Structured c g (.literalBool n value) true g
  | literalInteger (g n value) : Structured c g (.literalInteger n value) true g
  | ident {g n name var} (reads : c.store.Reads g n var) : Structured c g (.ident n name) true g
  | block {g n body h g'} (body_ : StructuredBlock c g false body h g') :
      Structured c g (.block n body) h g'
  | call {g n m name args f g'} (names : c.Names m f args.length)
      (args_ : StructuredArgs c g args g') :
      Structured c g (.call n (.ident m name) args) (c.returns f) g'
  | not {g n expr g'} (expr_ : Structured c g expr true g') :
      Structured c g (.unary n .not expr) true g'
  | binary {g n op left right g₁ g'} (op_ : op = .and ∨ op = .or)
      (left_ : Structured c g left true g₁) (right_ : Structured c g₁ right true g') :
      Structured c g (.binary n op left right) true g'
  | assign {g n m name var right g'} (reads : c.store.Reads g m var) (kind : var.kind = .variable)
      (right_ : Structured c g right true g') :
      Structured c g (.assign n (.ident m name) right) false g'
  | varDecl {g n var expr g'} (expr_ : Structured c g expr true g')
      (fresh : var.id ∉ g'.stored ∧ var.id ∉ g'.values) :
      Structured c g (.varDecl n var expr) false (g'.declare var.id)
  | ifThen {g n cond thenbody h g₁ g'} (cond_ : Structured c g cond true g₁)
      (thenbody_ : Structured c g₁ thenbody h g') :
      Structured c g (.ifThen n cond thenbody) false g'
  | ifElse {g n cond thenbody elsebody h g₁ g₂ g'} (cond_ : Structured c g cond true g₁)
      (thenbody_ : Structured c g₁ thenbody h g₂) (elsebody_ : Structured c g₂ elsebody h g') :
      Structured c g (.ifElse n cond thenbody elsebody) h g'
  | while {g n expr body h g₁ g'} (expr_ : Structured c g expr true g₁)
      (body_ : Structured c g₁ body h g') : Structured c g (.while n expr body) false g'

/-- The trees of a block, after one that has a value when `d` is true. -/
inductive EvalContext.StructuredBlock (c : EvalContext) :
    TreeScope → Bool → List Ast → Bool → TreeScope → Prop
  | nil (g d) : StructuredBlock c g d [] d g
  | cons {g d e h g₁ body h' g'} (head : Structured c g e h g₁)
      (tail : StructuredBlock c g₁ h body h' g') : StructuredBlock c g d (e :: body) h' g'

/-- The arguments of a call. -/
inductive EvalContext.StructuredArgs (c : EvalContext) :
    TreeScope → List Ast → TreeScope → Prop
  | nil (g) : StructuredArgs c g [] g
  | cons {g a g₁ args g'} (head : Structured c g a true g₁)
      (tail : StructuredArgs c g₁ args g') : StructuredArgs c g (a :: args) g'

end

end Aike
