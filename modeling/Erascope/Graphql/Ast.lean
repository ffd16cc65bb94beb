import Mathlib.Data.Rat.Defs
import Mathlib.Tactic

/-!
# GraphQL documents

The part of the syntax tree of `graphql` that the gate of
`services/api-gateways/graphiql.service.ts` looks at, and the functions of
`common/utils/utils.ts` that walk over it. These functions visit every object inside an
object, in the order of its keys, and the inner objects first: `nodes` is the list of what
they meet.

* `getDepth`: the nesting of the keys of a value that do not start with an underscore.
* `filterWhereQuery`: the `where` arguments below a node.
-/

namespace Erascope.Graphql

/-! ## 1. Syntax -/

/-- A value. Of a literal only `Number(value)` is used; `none` is `NaN`. -/
inductive Value
  | var (name : String)
  | literal (number : Option ℚ)
  | list (values : List Value)
  | object (fields : List (String × Value))

structure Argument where
  name : String
  value : Value

structure Directive where
  name : String
  arguments : List Argument

/-- A selection. A field without a selection set has the empty list there: the parser accepts
no empty set. -/
inductive Selection
  | field (name : String) (arguments : List Argument) (directives : List Directive)
      (selectionSet : List Selection)
  | fragmentSpread (name : String) (directives : List Directive)
  | inlineFragment (directives : List Directive) (selectionSet : List Selection)

/-- A variable of an operation with its default value. -/
structure VariableDefinition where
  name : String
  defaultValue : Option Value

/-- The definitions that a document may have; `other` are the mutations, the subscriptions and
the definitions of types. -/
inductive Definition
  | query (variableDefinitions : List VariableDefinition) (selectionSet : List Selection)
  | fragment (name : String) (selectionSet : List Selection)
  | other

/-- The result of `parse`; it has at least one definition. -/
structure Document where
  first : Definition
  rest : List Definition

def Document.definitions (d : Document) : List Definition := d.first :: d.rest

/-! ## 2. Walking over the tree -/

/-- The objects that the walks look at. -/
inductive Node
  | selection (s : Selection)
  | argument (a : Argument)
  | objectField (name : String) (value : Value)

mutual

/-- The objects inside a value, inner ones first. -/
def Value.nodes : Value → List Node
  | .var _ => []
  | .literal _ => []
  | .list values => Value.nodesOfList values
  | .object fields => Value.nodesOfFields fields

def Value.nodesOfList : List Value → List Node
  | [] => []
  | v :: vs => v.nodes ++ Value.nodesOfList vs

def Value.nodesOfFields : List (String × Value) → List Node
  | [] => []
  | (name, v) :: fs => v.nodes ++ Node.objectField name v :: Value.nodesOfFields fs

end

/-- The arguments of a field or of a directive with the objects inside them. -/
def argumentNodes (arguments : List Argument) : List Node :=
  arguments.flatMap fun a => a.value.nodes ++ [.argument a]

def directiveNodes (directives : List Directive) : List Node :=
  directives.flatMap fun d => argumentNodes d.arguments

mutual

/-- The objects inside a selection. -/
def Selection.nodes : Selection → List Node
  | .field _ arguments directives selectionSet =>
    argumentNodes arguments ++ directiveNodes directives ++ Selection.nodesOfList selectionSet
  | .fragmentSpread _ directives => directiveNodes directives
  | .inlineFragment directives selectionSet =>
    directiveNodes directives ++ Selection.nodesOfList selectionSet

def Selection.nodesOfList : List Selection → List Node
  | [] => []
  | s :: ss => s.nodes ++ Node.selection s :: Selection.nodesOfList ss

end

theorem nodesOfList_eq_flatMap (ss : List Selection) :
    Selection.nodesOfList ss = ss.flatMap fun s => s.nodes ++ [.selection s] := by
  induction ss with
  | nil => rfl
  | cons s ss ih =>
    rw [Selection.nodesOfList, ih, List.flatMap_cons, List.append_assoc, List.singleton_append]

/-- `sel.arguments?.find((arg) => arg.name.value === 'where')` -/
def Selection.whereArgument : Selection → Option Argument
  | .field _ arguments _ _ => arguments.find? fun a => a.name = "where"
  | _ => none

/-- `sel.selectionSet` -/
def Selection.selectionSet : Selection → List Selection
  | .field _ _ _ selectionSet => selectionSet
  | .fragmentSpread _ _ => []
  | .inlineFragment _ selectionSet => selectionSet

/-- What is inside a node. -/
def Node.inner : Node → List Node
  | .selection s => s.nodes
  | .argument a => a.value.nodes
  | .objectField _ value => value.nodes

/-- Lists of nodes with all that is inside them. -/
def Closed (nodes : List Node) : Prop := ∀ n ∈ nodes, n.inner ⊆ nodes

theorem closed_nil : Closed [] := by simp [Closed]

theorem Closed.append {ns ms : List Node} (hn : Closed ns) (hm : Closed ms) :
    Closed (ns ++ ms) := by
  intro n hmem
  rcases List.mem_append.mp hmem with h | h
  · exact fun x hx => List.mem_append_left _ (hn n h hx)
  · exact fun x hx => List.mem_append_right _ (hm n h hx)

theorem Closed.concat {n : Node} (h : Closed n.inner) : Closed (n.inner ++ [n]) := by
  intro m hm
  rcases List.mem_append.mp hm with hm | hm
  · exact fun x hx => List.mem_append_left _ (h m hm hx)
  · obtain rfl := List.mem_singleton.mp hm
    exact List.subset_append_left _ _

mutual

theorem Value.closed_nodes (v : Value) : Closed v.nodes := by
  cases v with
  | var name => exact closed_nil
  | literal number => exact closed_nil
  | list values => exact Value.closed_nodesOfList values
  | object fields => exact Value.closed_nodesOfFields fields

theorem Value.closed_nodesOfList (vs : List Value) : Closed (Value.nodesOfList vs) := by
  cases vs with
  | nil => exact closed_nil
  | cons v vs => exact (Value.closed_nodes v).append (Value.closed_nodesOfList vs)

theorem Value.closed_nodesOfFields (fs : List (String × Value)) :
    Closed (Value.nodesOfFields fs) := by
  match fs with
  | [] => exact closed_nil
  | (name, v) :: fs =>
    rw [Value.nodesOfFields, List.append_cons]
    have hv : Closed (Node.objectField name v).inner := Value.closed_nodes v
    exact hv.concat.append (Value.closed_nodesOfFields fs)

end

theorem closed_flatMap {α : Type} {f : α → List Node} (h : ∀ x, Closed (f x)) (xs : List α) :
    Closed (xs.flatMap f) := by
  induction xs with
  | nil => exact closed_nil
  | cons x xs ih => exact (h x).append ih

theorem closed_argumentNodes (args : List Argument) : Closed (argumentNodes args) :=
  closed_flatMap (fun a =>
    Closed.concat (n := .argument a) (Value.closed_nodes a.value)) args

theorem closed_directiveNodes (ds : List Directive) : Closed (directiveNodes ds) :=
  closed_flatMap (f := fun d : Directive => argumentNodes d.arguments)
    (fun d => closed_argumentNodes d.arguments) ds

mutual

theorem Selection.closed_nodes (s : Selection) : Closed s.nodes := by
  cases s with
  | field name arguments directives selectionSet =>
    exact ((closed_argumentNodes arguments).append (closed_directiveNodes directives)).append
      (Selection.closed_nodesOfList selectionSet)
  | fragmentSpread name directives => exact closed_directiveNodes directives
  | inlineFragment directives selectionSet =>
    exact (closed_directiveNodes directives).append (Selection.closed_nodesOfList selectionSet)

theorem Selection.closed_nodesOfList (ss : List Selection) :
    Closed (Selection.nodesOfList ss) := by
  cases ss with
  | nil => exact closed_nil
  | cons s ss =>
    rw [Selection.nodesOfList, List.append_cons]
    have hs : Closed (Node.selection s).inner := Selection.closed_nodes s
    exact hs.concat.append (Selection.closed_nodesOfList ss)

end

/-! ## 3. `getDepth` and `filterWhereQuery` -/

/-- `name.value.match('^_.')` -/
def isOperator (name : String) : Bool :=
  match name.toList with
  | '_' :: _ :: _ => true
  | _ => false

mutual

/-- `Utils.getDepth` of a value: the keys count that are not operators. -/
def Value.getDepth : Value → ℕ
  | .var _ => 0
  | .literal _ => 0
  | .list values => Value.depthOfList values
  | .object fields => Value.depthOfFields fields

def Value.depthOfList : List Value → ℕ
  | [] => 0
  | v :: vs => max v.getDepth (Value.depthOfList vs)

def Value.depthOfFields : List (String × Value) → ℕ
  | [] => 0
  | (name, v) :: fs =>
    max ((if isOperator name then 0 else 1) + v.getDepth) (Value.depthOfFields fs)

end

/-- `Utils.getDepth` of an argument -/
def Argument.getDepth (a : Argument) : ℕ := a.value.getDepth

/-- A node that is a `where` argument. -/
def Node.whereArgument? : Node → Option Argument
  | .argument a => if a.name = "where" then some a else none
  | _ => none

/-- `Utils.filterWhereQuery` of a selection set -/
def filterWhereQuery (selectionSet : List Selection) : List Argument :=
  (Selection.nodesOfList selectionSet).filterMap Node.whereArgument?

end Erascope.Graphql
