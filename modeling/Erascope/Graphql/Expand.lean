import Mathlib.Tactic
import Erascope.Graphql.Ast

/-!
# Expanded operations

An operation of a document with its fragments inlined and its variables replaced: the literal
query that is executed in the end. The walks of the gate see the arguments named `where`, the
keys of objects and the fields; `Seen` is what they see of a node.

* `Document.expansion`: the expanded operation.
* `Selection.inView`: what the walks see of a selection is all that will be executed.

Result: `seen_expandList`, in view the walks see the same in the expansion, with the variables
replaced.
-/

namespace Erascope.Graphql

/-! ## 1. The expansion -/

/-- The values of the variables. -/
abbrev Values := String → Option Value

mutual

/-- A value with its variables replaced. A variable without a value leaves a key out, and is
`null` in a list. -/
def Value.subst (σ : Values) : Value → Option Value
  | .var name => σ name
  | .literal number => some (.literal number)
  | .list values => some (.list (Value.substList σ values))
  | .object fields => some (.object (Value.substFields σ fields))

def Value.substList (σ : Values) : List Value → List Value
  | [] => []
  | v :: vs => (v.subst σ).getD (.literal none) :: Value.substList σ vs

def Value.substFields (σ : Values) : List (String × Value) → List (String × Value)
  | [] => []
  | (name, v) :: fs => ((v.subst σ).map (name, ·)).toList ++ Value.substFields σ fs

end

/-- Arguments with their variables replaced; one without a value is left out. -/
def substArguments (σ : Values) (arguments : List Argument) : List Argument :=
  arguments.filterMap fun a => (a.value.subst σ).map (⟨a.name, ·⟩)

def substDirectives (σ : Values) (directives : List Directive) : List Directive :=
  directives.map fun d => ⟨d.name, substArguments σ d.arguments⟩

/-- The directives of a fragment hold for each selection in it. -/
def Selection.addDirectives (ds : List Directive) : Selection → Selection
  | .field name arguments directives selectionSet =>
    .field name arguments (ds ++ directives) selectionSet
  | .fragmentSpread name directives => .fragmentSpread name (ds ++ directives)
  | .inlineFragment directives selectionSet => .inlineFragment (ds ++ directives) selectionSet

mutual

/-- A selection with its fragments inlined; `fragments` are the named ones, expanded. -/
def Selection.expand (σ : Values) (fragments : String → List Selection) :
    Selection → List Selection
  | .field name arguments directives selectionSet =>
    [.field name (substArguments σ arguments) (substDirectives σ directives)
      (Selection.expandList σ fragments selectionSet)]
  | .fragmentSpread name directives =>
    (fragments name).map (Selection.addDirectives (substDirectives σ directives))
  | .inlineFragment directives selectionSet =>
    (Selection.expandList σ fragments selectionSet).map
      (Selection.addDirectives (substDirectives σ directives))

def Selection.expandList (σ : Values) (fragments : String → List Selection) :
    List Selection → List Selection
  | [] => []
  | s :: ss => s.expand σ fragments ++ Selection.expandList σ fragments ss

end

theorem expandList_eq_flatMap (σ : Values) (fragments : String → List Selection)
    (ss : List Selection) :
    Selection.expandList σ fragments ss = ss.flatMap (Selection.expand σ fragments) := by
  induction ss with
  | nil => rfl
  | cons s ss ih => rw [Selection.expandList, ih, List.flatMap_cons]

/-- The selections of a definition that is the fragment `name`. -/
def Definition.fragment? (name : String) : Definition → Option (List Selection)
  | .fragment n selectionSet => if n = name then some selectionSet else none
  | _ => none

def Document.fragment (doc : Document) (name : String) : List Selection :=
  (doc.definitions.findSome? (Definition.fragment? name)).getD []

/-- The named fragments expanded, through `depth` fragments inside each other. -/
def Document.fragments (doc : Document) (σ : Values) : ℕ → String → List Selection
  | 0, _ => []
  | depth + 1, name => Selection.expandList σ (doc.fragments σ depth) (doc.fragment name)

/-- An operation of a document. -/
structure Operation where
  variableDefinitions : List VariableDefinition
  selectionSet : List Selection

def Definition.operation? : Definition → Option Operation
  | .query variableDefinitions selectionSet => some ⟨variableDefinitions, selectionSet⟩
  | _ => none

def Document.operations (doc : Document) : List Operation :=
  doc.definitions.filterMap Definition.operation?

/-- The values of the variables of an operation: from the request, else the default. -/
def Operation.values (op : Operation) (vars : List (String × Value)) : Values := fun name =>
  (op.variableDefinitions.find? fun d => d.name = name).bind fun d =>
    (vars.lookup name).or d.defaultValue

/-- The selections of an operation, expanded. Fragments are not cyclic, so their number bounds
how deep they are inside each other. -/
def Document.expand (doc : Document) (vars : List (String × Value)) (op : Operation) :
    List Selection :=
  let σ := op.values vars
  Selection.expandList σ (doc.fragments σ doc.definitions.length) op.selectionSet

/-- The expanded operation as a document of its own. -/
def Document.expansion (doc : Document) (vars : List (String × Value)) (op : Operation) :
    Document :=
  ⟨.query [] (doc.expand vars op), []⟩

/-! ## 2. What the walks see -/

/-- What the walks see of a node. -/
inductive Seen
  | field (name : String) (whereArgument : Option Argument)
  | subWhere (a : Argument)
  | key (name : String) (value : Value)

def Node.seen : Node → Option Seen
  | .selection (.field name arguments directives selectionSet) =>
    some (.field name (Selection.field name arguments directives selectionSet).whereArgument)
  | .selection _ => none
  | .argument a => if a.name = "where" then some (.subWhere a) else none
  | .objectField name value => some (.key name value)

def seen (nodes : List Node) : List Seen := nodes.filterMap Node.seen

@[simp] theorem seen_nil : seen [] = [] := rfl

@[simp] theorem seen_append (ns ms : List Node) : seen (ns ++ ms) = seen ns ++ seen ms :=
  List.filterMap_append ..

@[simp] theorem seen_cons (n : Node) (ns : List Node) :
    seen (n :: ns) = n.seen.toList ++ seen ns := by
  unfold seen
  cases h : n.seen with
  | none => exact List.filterMap_cons_none h
  | some x => exact List.filterMap_cons_some h

/-! ## 3. Replaced variables -/

mutual

/-- The variables in a value. -/
def Value.vars : Value → List String
  | .var name => [name]
  | .literal _ => []
  | .list values => Value.varsOfList values
  | .object fields => Value.varsOfFields fields

def Value.varsOfList : List Value → List String
  | [] => []
  | v :: vs => v.vars ++ Value.varsOfList vs

def Value.varsOfFields : List (String × Value) → List String
  | [] => []
  | (_, v) :: fs => v.vars ++ Value.varsOfFields fs

end

/-- The arguments of directives. -/
def directiveArguments (directives : List Directive) : List Argument :=
  directives.flatMap fun d => d.arguments

mutual

/-- The arguments inside a selection. -/
def Selection.argumentsIn : Selection → List Argument
  | .field _ arguments directives selectionSet =>
    arguments ++ directiveArguments directives ++ Selection.argumentsInList selectionSet
  | .fragmentSpread _ directives => directiveArguments directives
  | .inlineFragment directives selectionSet =>
    directiveArguments directives ++ Selection.argumentsInList selectionSet

def Selection.argumentsInList : List Selection → List Argument
  | [] => []
  | s :: ss => s.argumentsIn ++ Selection.argumentsInList ss

end

theorem argumentsInList_eq_flatMap (ss : List Selection) :
    Selection.argumentsInList ss = ss.flatMap Selection.argumentsIn := by
  induction ss with
  | nil => rfl
  | cons s ss ih => rw [Selection.argumentsInList, ih, List.flatMap_cons]

def Value.isVar : Value → Bool
  | .var _ => true
  | _ => false

theorem Value.isVar_iff {v : Value} : v.isVar ↔ ∃ x, v = .var x := by
  cases v <;> simp [Value.isVar]

/-- An argument that is nothing but a variable; without a value it may be left out, unless it
is `where`. -/
def Argument.isOptional (a : Argument) : Bool := a.name ≠ "where" && a.value.isVar

mutual

/-- A value with its variables replaced, when all of them have a value. -/
def Value.replace (τ : String → Value) : Value → Value
  | .var name => τ name
  | .literal number => .literal number
  | .list values => .list (Value.replaceList τ values)
  | .object fields => .object (Value.replaceFields τ fields)

def Value.replaceList (τ : String → Value) : List Value → List Value
  | [] => []
  | v :: vs => v.replace τ :: Value.replaceList τ vs

def Value.replaceFields (τ : String → Value) : List (String × Value) → List (String × Value)
  | [] => []
  | (name, v) :: fs => (name, v.replace τ) :: Value.replaceFields τ fs

end

def Argument.replace (τ : String → Value) (a : Argument) : Argument := ⟨a.name, a.value.replace τ⟩

def Seen.replace (τ : String → Value) : Seen → Seen
  | .field name w => .field name (w.map (Argument.replace τ))
  | .subWhere a => .subWhere (a.replace τ)
  | .key name value => .key name (value.replace τ)

section
variable {σ : Values} {τ : String → Value}

mutual

theorem Value.subst_eq_replace (v : Value) (h : ∀ x ∈ v.vars, σ x = some (τ x)) :
    v.subst σ = some (v.replace τ) := by
  cases v with
  | var name => exact h name (List.mem_singleton_self name)
  | literal number => rfl
  | list values => rw [Value.subst, Value.replace, Value.substList_eq_replaceList values h]
  | object fields => rw [Value.subst, Value.replace, Value.substFields_eq_replaceFields fields h]

theorem Value.substList_eq_replaceList (vs : List Value)
    (h : ∀ x ∈ Value.varsOfList vs, σ x = some (τ x)) :
    Value.substList σ vs = Value.replaceList τ vs := by
  cases vs with
  | nil => rfl
  | cons v vs =>
    have hv := Value.subst_eq_replace v fun x hx => h x (List.mem_append_left _ hx)
    have hvs := Value.substList_eq_replaceList vs fun x hx => h x (List.mem_append_right _ hx)
    rw [Value.substList, Value.replaceList, hv, hvs, Option.getD_some]

theorem Value.substFields_eq_replaceFields (fs : List (String × Value))
    (h : ∀ x ∈ Value.varsOfFields fs, σ x = some (τ x)) :
    Value.substFields σ fs = Value.replaceFields τ fs := by
  match fs with
  | [] => rfl
  | (name, v) :: fs =>
    have hv := Value.subst_eq_replace v fun x hx => h x (List.mem_append_left _ hx)
    have hfs := Value.substFields_eq_replaceFields fs fun x hx => h x (List.mem_append_right _ hx)
    rw [Value.substFields, Value.replaceFields, hv, hfs]
    rfl

end

theorem Value.replaceFields_eq_map (fs : List (String × Value)) :
    Value.replaceFields τ fs = fs.map fun f => (f.1, f.2.replace τ) := by
  induction fs with
  | nil => rfl
  | cons f fs ih => rw [Value.replaceFields, ih, List.map_cons]

mutual

/-- Where the values of the variables have no keys, the same is seen in a replaced value. -/
theorem seen_replace (v : Value) (hτ : ∀ x, (τ x).nodes = []) :
    seen (v.replace τ).nodes = (seen v.nodes).map (Seen.replace τ) := by
  cases v with
  | var name => rw [Value.replace, hτ, Value.nodes, seen_nil, List.map_nil]
  | literal number => rfl
  | list values =>
    rw [Value.replace, Value.nodes, Value.nodes]
    exact seen_replaceList values hτ
  | object fields =>
    rw [Value.replace, Value.nodes, Value.nodes]
    exact seen_replaceFields fields hτ

theorem seen_replaceList (vs : List Value) (hτ : ∀ x, (τ x).nodes = []) :
    seen (Value.nodesOfList (Value.replaceList τ vs)) =
      (seen (Value.nodesOfList vs)).map (Seen.replace τ) := by
  cases vs with
  | nil => rfl
  | cons v vs =>
    rw [Value.replaceList, Value.nodesOfList, Value.nodesOfList, seen_append, seen_append,
      List.map_append, seen_replace v hτ, seen_replaceList vs hτ]

theorem seen_replaceFields (fs : List (String × Value)) (hτ : ∀ x, (τ x).nodes = []) :
    seen (Value.nodesOfFields (Value.replaceFields τ fs)) =
      (seen (Value.nodesOfFields fs)).map (Seen.replace τ) := by
  match fs with
  | [] => rfl
  | (name, v) :: fs =>
    rw [Value.replaceFields, Value.nodesOfFields, Value.nodesOfFields, seen_append, seen_append,
      seen_cons, seen_cons, List.map_append, List.map_append, seen_replace v hτ,
      seen_replaceFields fs hτ]
    rfl

end

/-- An argument whose variables `τ` replaces, or that may be left out. -/
def Fits (σ : Values) (τ : String → Value) (a : Argument) : Prop :=
  a.value.subst σ = some (a.value.replace τ) ∨
    a.isOptional ∧ ∀ v, a.value.subst σ = some v → v.nodes = []

theorem substArguments_cons (a : Argument) (args : List Argument) :
    substArguments σ (a :: args) =
      ((a.value.subst σ).map (⟨a.name, ·⟩)).toList ++ substArguments σ args := by
  unfold substArguments
  rw [List.filterMap_cons]
  cases a.value.subst σ <;> rfl

theorem argumentNodes_append (as bs : List Argument) :
    argumentNodes (as ++ bs) = argumentNodes as ++ argumentNodes bs :=
  List.flatMap_append ..

theorem argumentNodes_cons (a : Argument) (args : List Argument) :
    argumentNodes (a :: args) = (a.value.nodes ++ [.argument a]) ++ argumentNodes args :=
  List.flatMap_cons ..

theorem seen_argument_replace (a : Argument) :
    (Node.argument (a.replace τ)).seen.toList =
      ((Node.argument a).seen.toList).map (Seen.replace τ) := by
  by_cases ha : a.name = "where"
  · simp [Node.seen, Argument.replace, Seen.replace, ha]
  · simp [Node.seen, Argument.replace, ha]

theorem Argument.isOptional_iff {a : Argument} :
    a.isOptional ↔ a.name ≠ "where" ∧ a.value.isVar := by
  simp [Argument.isOptional]

/-- An optional argument is not seen. -/
theorem seen_of_not_where {name : String} {v : Value} (hname : name ≠ "where")
    (hv : v.nodes = []) : seen (v.nodes ++ [.argument ⟨name, v⟩]) = [] := by
  simp [hv, Node.seen, hname]

theorem seen_substArguments (args : List Argument) (h : ∀ a ∈ args, Fits σ τ a)
    (hτ : ∀ x, (τ x).nodes = []) :
    seen (argumentNodes (substArguments σ args)) =
      (seen (argumentNodes args)).map (Seen.replace τ) := by
  induction args with
  | nil => rfl
  | cons a args ih =>
    have hargs := ih fun b hb => h b (List.mem_cons_of_mem _ hb)
    rw [substArguments_cons, argumentNodes_append, argumentNodes_cons, seen_append, seen_append,
      List.map_append, hargs]
    congr 1
    rcases h a List.mem_cons_self with ha | ⟨hopt, ha⟩
    · rw [ha, Option.map_some, Option.toList_some, argumentNodes_cons, seen_append, seen_append,
        seen_replace a.value hτ, seen_append, seen_cons, seen_cons, List.map_append,
        List.map_append, ← seen_argument_replace, argumentNodes, List.flatMap_nil, seen_nil,
        List.append_nil, List.append_nil, List.map_nil, List.append_nil]
      rfl
    · obtain ⟨hname, hvar⟩ := Argument.isOptional_iff.mp hopt
      obtain ⟨x, hx⟩ := Value.isVar_iff.mp hvar
      rw [seen_of_not_where hname (show a.value.nodes = [] by rw [hx, Value.nodes]), List.map_nil]
      cases hs : a.value.subst σ with
      | none => rfl
      | some v =>
        rw [Option.map_some, Option.toList_some, argumentNodes_cons, seen_append,
          seen_of_not_where hname (ha v hs)]
        rfl

theorem seen_substDirectives (ds : List Directive)
    (h : ∀ a ∈ directiveArguments ds, Fits σ τ a) (hτ : ∀ x, (τ x).nodes = []) :
    seen (directiveNodes (substDirectives σ ds)) =
      (seen (directiveNodes ds)).map (Seen.replace τ) := by
  induction ds with
  | nil => rfl
  | cons d ds ih =>
    have hd := seen_substArguments d.arguments (fun a ha => h a (List.mem_append_left _ ha)) hτ
    have hds := ih fun a ha => h a (List.mem_append_right _ ha)
    show seen (argumentNodes (substArguments σ d.arguments) ++
      directiveNodes (substDirectives σ ds)) = (seen (argumentNodes d.arguments ++
        directiveNodes ds)).map (Seen.replace τ)
    rw [seen_append, seen_append, List.map_append, hd, hds]

/-- The `where` argument is found where it was. -/
theorem find?_substArguments (args : List Argument) (h : ∀ a ∈ args, Fits σ τ a) :
    (substArguments σ args).find? (fun a => a.name = "where") =
      (args.find? fun a => a.name = "where").map (Argument.replace τ) := by
  induction args with
  | nil => rfl
  | cons a args ih =>
    have hargs := ih fun b hb => h b (List.mem_cons_of_mem _ hb)
    rw [substArguments_cons, List.find?_append, hargs]
    by_cases ha : a.name = "where"
    · rcases h a List.mem_cons_self with hs | ⟨hopt, -⟩
      · simp [hs, ha, Argument.replace]
      · exact absurd ha (Argument.isOptional_iff.mp hopt).1
    · cases a.value.subst σ with
      | none => simp [ha]
      | some v => simp [ha]

/-! ## 4. Selections in view -/

mutual

/-- All that will be executed is in view: no named fragment is used, and the directives of
inline fragments have nothing in them that is seen. -/
def Selection.inView : Selection → Bool
  | .field _ _ _ selectionSet => Selection.inViewList selectionSet
  | .fragmentSpread _ _ => false
  | .inlineFragment directives selectionSet =>
    (seen (directiveNodes directives)).isEmpty && Selection.inViewList selectionSet

def Selection.inViewList : List Selection → Bool
  | [] => true
  | s :: ss => s.inView && Selection.inViewList ss

end

theorem inViewList_eq_all (ss : List Selection) :
    Selection.inViewList ss = ss.all Selection.inView := by
  induction ss with
  | nil => rfl
  | cons s ss ih => rw [Selection.inViewList, ih, List.all_cons]

theorem nodesOfList_append (ss ts : List Selection) :
    Selection.nodesOfList (ss ++ ts) =
      Selection.nodesOfList ss ++ Selection.nodesOfList ts := by
  rw [nodesOfList_eq_flatMap, List.flatMap_append, ← nodesOfList_eq_flatMap,
    ← nodesOfList_eq_flatMap]

theorem seen_nodesOfList_cons (s : Selection) (ss : List Selection) :
    seen (Selection.nodesOfList (s :: ss)) =
      seen (s.nodes ++ [.selection s]) ++ seen (Selection.nodesOfList ss) := by
  rw [Selection.nodesOfList, ← seen_append, List.append_assoc, List.singleton_append]

theorem directiveNodes_append (ds es : List Directive) :
    directiveNodes (ds ++ es) = directiveNodes ds ++ directiveNodes es :=
  List.flatMap_append ..

/-- Directives with nothing in them are not seen where they are added. -/
theorem seen_addDirectives {ds : List Directive} (hds : seen (directiveNodes ds) = [])
    (s : Selection) :
    seen ((s.addDirectives ds).nodes ++ [.selection (s.addDirectives ds)]) =
      seen (s.nodes ++ [.selection s]) := by
  cases s with
  | field name arguments directives selectionSet =>
    simp [Selection.addDirectives, Selection.nodes, directiveNodes_append, hds, Node.seen,
      Selection.whereArgument]
  | fragmentSpread name directives =>
    simp [Selection.addDirectives, Selection.nodes, directiveNodes_append, hds, Node.seen]
  | inlineFragment directives selectionSet =>
    simp [Selection.addDirectives, Selection.nodes, directiveNodes_append, hds, Node.seen]

theorem seen_map_addDirectives {ds : List Directive} (hds : seen (directiveNodes ds) = [])
    (ss : List Selection) :
    seen (Selection.nodesOfList (ss.map (Selection.addDirectives ds))) =
      seen (Selection.nodesOfList ss) := by
  induction ss with
  | nil => rfl
  | cons s ss ih =>
    rw [List.map_cons, seen_nodesOfList_cons, seen_nodesOfList_cons, ih, seen_addDirectives hds s]

def Selection.fieldName? : Selection → Option String
  | .field name _ _ _ => some name
  | _ => none

/-- The walks see in `t` what they see in `s`, with the variables replaced. -/
structure Replaces (τ : String → Value) (s t : Selection) : Prop where
  fieldName : t.fieldName? = s.fieldName?
  whereArgument : t.whereArgument = s.whereArgument.map (Argument.replace τ)
  nodes : seen t.nodes = (seen s.nodes).map (Seen.replace τ)
  selectionSet : seen (Selection.nodesOfList t.selectionSet) =
    (seen (Selection.nodesOfList s.selectionSet)).map (Seen.replace τ)

theorem Node.seen_selection (s : Selection) :
    (Node.selection s).seen = s.fieldName?.map fun name => .field name s.whereArgument := by
  cases s <;> rfl

theorem Replaces.seen_concat {s t : Selection} (h : Replaces τ s t) :
    seen (t.nodes ++ [.selection t]) =
      (seen (s.nodes ++ [.selection s])).map (Seen.replace τ) := by
  rw [seen_append, seen_append, List.map_append, h.nodes, seen_cons, seen_cons,
    Node.seen_selection, Node.seen_selection, h.fieldName, h.whereArgument]
  cases s.fieldName? <;> rfl

/-- A field whose arguments are replaced and whose selection set shows the same. -/
theorem replaces_field (name : String) {arguments : List Argument} {directives : List Directive}
    {ss ts : List Selection} (hτ : ∀ x, (τ x).nodes = [])
    (hargs : ∀ a ∈ arguments ++ directiveArguments directives, Fits σ τ a)
    (hset : seen (Selection.nodesOfList ts) =
      (seen (Selection.nodesOfList ss)).map (Seen.replace τ)) :
    Replaces τ (.field name arguments directives ss)
      (.field name (substArguments σ arguments) (substDirectives σ directives) ts) where
  fieldName := rfl
  whereArgument := find?_substArguments arguments fun a ha => hargs a (List.mem_append_left _ ha)
  nodes := by
    have hown := seen_substArguments arguments
      (fun a ha => hargs a (List.mem_append_left _ ha)) hτ
    have hdirs := seen_substDirectives directives
      (fun a ha => hargs a (List.mem_append_right _ ha)) hτ
    simp only [Selection.nodes, seen_append, List.map_append, hown, hdirs, hset]
  selectionSet := hset

mutual

theorem seen_expand (fragments : String → List Selection) (s : Selection) (hs : s.inView)
    (hargs : ∀ a ∈ s.argumentsIn, Fits σ τ a) (hτ : ∀ x, (τ x).nodes = []) :
    seen (Selection.nodesOfList (s.expand σ fragments)) =
      (seen (s.nodes ++ [.selection s])).map (Seen.replace τ) := by
  cases s with
  | field name arguments directives selectionSet =>
    rw [Selection.argumentsIn] at hargs
    have hset := seen_expandList fragments selectionSet hs
      (fun a ha => hargs a (List.mem_append_right _ ha)) hτ
    have hfield := replaces_field name hτ (fun a ha => hargs a (List.mem_append_left _ ha)) hset
    rw [Selection.expand]
    exact hfield.seen_concat
  | fragmentSpread name directives => cases hs
  | inlineFragment directives selectionSet =>
    rw [Selection.argumentsIn] at hargs
    rw [Selection.inView, Bool.and_eq_true, List.isEmpty_iff] at hs
    have hset := seen_expandList fragments selectionSet hs.2
      (fun a ha => hargs a (List.mem_append_right _ ha)) hτ
    have hplain : seen (directiveNodes (substDirectives σ directives)) = [] := by
      rw [seen_substDirectives directives (fun a ha => hargs a (List.mem_append_left _ ha)) hτ,
        hs.1, List.map_nil]
    rw [Selection.expand, seen_map_addDirectives hplain, hset]
    simp [Selection.nodes, hs.1, Node.seen]

/-- In view, the expansion shows the same with the variables replaced. -/
theorem seen_expandList (fragments : String → List Selection) (ss : List Selection)
    (hss : Selection.inViewList ss) (hargs : ∀ a ∈ Selection.argumentsInList ss, Fits σ τ a)
    (hτ : ∀ x, (τ x).nodes = []) :
    seen (Selection.nodesOfList (Selection.expandList σ fragments ss)) =
      (seen (Selection.nodesOfList ss)).map (Seen.replace τ) := by
  cases ss with
  | nil => rfl
  | cons s ss =>
    rw [Selection.inViewList, Bool.and_eq_true] at hss
    rw [Selection.argumentsInList] at hargs
    have hs := seen_expand fragments s hss.1 (fun a ha => hargs a (List.mem_append_left _ ha)) hτ
    have ih := seen_expandList fragments ss hss.2
      (fun a ha => hargs a (List.mem_append_right _ ha)) hτ
    rw [Selection.expandList, nodesOfList_append, seen_append, hs, ih, seen_nodesOfList_cons,
      List.map_append]

end

end

end Erascope.Graphql
