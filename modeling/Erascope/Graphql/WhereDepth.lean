import Mathlib.Tactic
import Erascope.Graphql.DepthLimit
import Erascope.Graphql.Js
import Erascope.Lib.Paired

/-!
# The limits on `where`

`handleGraphQLQuery` calls `Utils.getDepth` and `Utils.filterWhereQuery` with nodes of the tree of
`graphql`. `Shown` says which untyped nodes a part of a document is; on these the walks compute what
`Argument.getDepth` and `filterWhereQuery` do on the syntax tree. With the exactness of the walks,
a query that is forwarded keeps the limits on every way through its `where` arguments.

The queries of the whitelist are forwarded unchecked. They have variables, so no query without
variables is one of them (`not_whitelisted`).

Results:
1. `getDepth_shown`, `filterWhereQuery_shown`: the walks agree with the syntax tree.
2. `where_depth_exact`: the measure is exact, and the limits are kept.
-/

namespace Erascope.Graphql

/-! ## 1. The nodes of a document -/

/-- A node. -/
def node (kind : String) (props : List (String × Js)) : Js :=
  .object (("kind", .scalar (.string kind)) :: props)

def IsName (name : String) : Prop := ∀ c ∈ name.toList, isNameContinue c

def nameNode (name : String) : Js := node "Name" [("value", .scalar (.string name))]

def literalKinds : List String :=
  ["IntValue", "FloatValue", "StringValue", "BooleanValue", "NullValue", "EnumValue"]

def objectFieldNode (name : String) (value : Js) : Js :=
  node "ObjectField" [("name", nameNode name), ("value", value)]

mutual

/-- The node is the value. -/
def Value.Shown : Value → Js → Prop
  | .var name, j => IsName name ∧ j = node "Variable" [("name", nameNode name)]
  | .literal _, j => ∃ kind props, kind ∈ literalKinds ∧
      (∀ i ∈ props.map Prod.snd, ∃ s, i = .scalar s) ∧ j = node kind props
  | .list values, j => ∃ items, Value.ShownList values items ∧
      j = node "ListValue" [("values", .array items)]
  | .object fields, j => ∃ items, Value.ShownFields fields items ∧
      j = node "ObjectValue" [("fields", .array items)]

def Value.ShownList : List Value → List Js → Prop
  | [], js => js = []
  | v :: vs, js => ∃ i is, v.Shown i ∧ Value.ShownList vs is ∧ js = i :: is

def Value.ShownFields : List (String × Value) → List Js → Prop
  | [], js => js = []
  | (name, v) :: fs, js => ∃ i is, IsName name ∧ v.Shown i ∧ Value.ShownFields fs is ∧
      js = objectFieldNode name i :: is

end

def Argument.Shown (a : Argument) (j : Js) : Prop :=
  ∃ value, IsName a.name ∧ a.value.Shown value ∧
    j = node "Argument" [("name", nameNode a.name), ("value", value)]

def Directive.Shown (d : Directive) (j : Js) : Prop :=
  ∃ args, IsName d.name ∧ List.Forall₂ Argument.Shown d.arguments args ∧
    j = node "Directive" [("name", nameNode d.name), ("arguments", .array args)]

/-- The alias of a field. -/
def AliasShown (j : Js) : Prop := j = .scalar .undefined ∨ ∃ name, IsName name ∧ j = nameNode name

/-- The type condition of a fragment. -/
def TypeConditionShown (j : Js) : Prop :=
  j = .scalar .undefined ∨ ∃ name, IsName name ∧ j = node "NamedType" [("name", nameNode name)]

mutual

/-- The node is the selection. -/
def Selection.Shown : Selection → Js → Prop
  | .field name arguments directives selectionSet, j =>
    ∃ aliased args dirs set, IsName name ∧ AliasShown aliased ∧
      List.Forall₂ Argument.Shown arguments args ∧ List.Forall₂ Directive.Shown directives dirs ∧
      ((selectionSet = [] ∧ set = .scalar .undefined) ∨
        (selectionSet ≠ [] ∧ ∃ items, Selection.ShownList selectionSet items ∧
          set = node "SelectionSet" [("selections", .array items)])) ∧
      j = node "Field" [("alias", aliased), ("name", nameNode name), ("arguments", .array args),
        ("directives", .array dirs), ("selectionSet", set)]
  | .fragmentSpread name directives, j =>
    ∃ dirs, IsName name ∧ List.Forall₂ Directive.Shown directives dirs ∧
      j = node "FragmentSpread" [("name", nameNode name), ("directives", .array dirs)]
  | .inlineFragment directives selectionSet, j =>
    ∃ condition dirs items, TypeConditionShown condition ∧
      List.Forall₂ Directive.Shown directives dirs ∧ Selection.ShownList selectionSet items ∧
      j = node "InlineFragment" [("typeCondition", condition), ("directives", .array dirs),
        ("selectionSet", node "SelectionSet" [("selections", .array items)])]

def Selection.ShownList : List Selection → List Js → Prop
  | [], js => js = []
  | s :: ss, js => ∃ i is, s.Shown i ∧ Selection.ShownList ss is ∧ js = i :: is

end

/-- The value of `selectionSet`; a field without selections has none. -/
def SelectionSetShown (selectionSet : List Selection) (j : Js) : Prop :=
  (selectionSet = [] ∧ j = .scalar .undefined) ∨
    ∃ items, Selection.ShownList selectionSet items ∧
      j = node "SelectionSet" [("selections", .array items)]

/-! ## 2. The walks on the nodes of a document -/

namespace WhereDepthLemmas

theorem hasKind_node (kind other : String) (props : List (String × Js)) :
    hasKind (("kind", .scalar (.string kind)) :: props) other = decide (kind = other) := rfl

/-- A node of a kind without a name, or with one. -/
theorem isNode_node {kind : String} {props : List (String × Js)}
    (h : (kind ≠ "ObjectField" ∧ kind ≠ "Argument") ∨
      ∃ name rest, IsName name ∧ props = ("name", nameNode name) :: rest) :
    IsNode (("kind", .scalar (.string kind)) :: props) := by
  refine ⟨⟨kind, rfl⟩, fun hkind => ?_⟩
  rcases h with ⟨hfield, hargument⟩ | ⟨name, rest, hname, rfl⟩
  · rcases hkind with hkind | hkind
    · exact absurd (of_decide_eq_true hkind) hfield
    · exact absurd (of_decide_eq_true hkind) hargument
  · exact ⟨name, rfl, hname⟩

theorem isAst_node {kind : String} {props : List (String × Js)}
    (h : (kind ≠ "ObjectField" ∧ kind ≠ "Argument") ∨
      ∃ name rest, IsName name ∧ props = ("name", nameNode name) :: rest)
    (hprops : ∀ j ∈ props.map Prod.snd, j.IsAst) : (node kind props).IsAst :=
  .object (isNode_node h) (List.forall_mem_cons.mpr ⟨.scalar _, hprops⟩)

/-- The depth of a node that is no object field. -/
theorem getDepth_node {kind : String} (hkind : kind ≠ "ObjectField") {props : List (String × Js)}
    {d : ℤ} (hd : Js.maxDepth (props.map Prod.snd) = some d) :
    (node kind props).getDepth = some (max 0 d) := by
  have hown : ownDepth (("kind", .scalar (.string kind)) :: props) = some 0 := by
    rw [ownDepth, hasKind_node, decide_eq_false hkind]
    rfl
  rw [node, Js.getDepth, hown, JsLemmas.maxDepthOfProps_eq, List.map_cons, Js.maxDepth, hd]
  simp [Js.getDepth]

/-- `filterWhereQuery` finds the `where` arguments below and among the nodes. -/
structure Collects (js : List Js) (ws : List Argument) : Prop where
  ast : ∀ j ∈ js, j.IsAst
  found : ∃ us, Js.filterList js = some us ∧ List.Forall₂ Argument.Shown ws us

theorem collects_nil : Collects [] [] := ⟨by simp, [], rfl, .nil⟩

theorem filterList_cons {j : Js} {js us us' : List Js} (hj : Js.filterList [j] = some us)
    (hjs : Js.filterList js = some us') : Js.filterList (j :: js) = some (us ++ us') := by
  simp only [Js.filterList, Option.map_some, List.append_nil] at hj ⊢
  obtain ⟨inside, hinside, hrest⟩ := Option.bind_eq_some_iff.mp hj
  obtain ⟨itself, hitself, hsum⟩ := Option.bind_eq_some_iff.mp hrest
  rw [hinside, Option.bind_some, hitself, Option.bind_some, hjs, Option.map_some,
    Option.some.inj hsum]

theorem Collects.cons {j : Js} {js : List Js} {ws ws' : List Argument} (hj : Collects [j] ws)
    (hjs : Collects js ws') : Collects (j :: js) (ws ++ ws') := by
  obtain ⟨us, hus, hshown⟩ := hj.found
  obtain ⟨us', hus', hshown'⟩ := hjs.found
  refine ⟨List.forall_mem_cons.mpr ⟨hj.ast j (List.mem_singleton_self j), hjs.ast⟩,
    us ++ us', filterList_cons hus hus', ?_⟩
  exact List.rel_append hshown hshown'

theorem collects_scalar (s : Scalar) : Collects [.scalar s] [] :=
  ⟨List.forall_mem_singleton.mpr (.scalar s), [], rfl, .nil⟩

theorem filterList_singleton {j : Js} {us : List Js} (hinside : j.filterWhereQuery = some us)
    (hitself : whereItself j = some []) : Js.filterList [j] = some us := by
  rw [Js.filterList, hinside, Option.bind_some, hitself, Option.bind_some, Js.filterList]
  simp

theorem collects_array {items : List Js} {ws : List Argument} (h : Collects items ws) :
    Collects [.array items] ws := by
  obtain ⟨us, hus, hshown⟩ := h.found
  exact ⟨List.forall_mem_singleton.mpr (.array h.ast), us, filterList_singleton hus rfl, hshown⟩

/-- Below a node there is what its properties have. -/
theorem filterWhereQuery_node (kind : String) {props : List (String × Js)} {us : List Js}
    (h : Js.filterList (props.map Prod.snd) = some us) :
    (node kind props).filterWhereQuery = some us := by
  rw [node, Js.filterWhereQuery, JsLemmas.filterProps_eq, List.map_cons]
  have hkind : Js.filterList [.scalar (.string kind)] = some [] := rfl
  exact filterList_cons hkind h

theorem collects_node {kind : String} (hkind : kind ≠ "Argument") {props : List (String × Js)}
    {ws : List Argument} (hname : kind ≠ "ObjectField" ∨
      ∃ name rest, IsName name ∧ props = ("name", nameNode name) :: rest)
    (h : Collects (props.map Prod.snd) ws) : Collects [node kind props] ws := by
  obtain ⟨us, hus, hshown⟩ := h.found
  have hitself : whereItself (node kind props) = some [] := by
    rw [node, whereItself, hasKind_node, decide_eq_false hkind]
    rfl
  refine ⟨List.forall_mem_singleton.mpr (isAst_node (hname.imp_left fun hf => ⟨hf, hkind⟩) h.ast),
    us, filterList_singleton (filterWhereQuery_node kind hus) hitself, hshown⟩

theorem collects_nameNode (name : String) : Collects [nameNode name] [] :=
  collects_node (by decide) (Or.inl (by decide)) (collects_scalar _)

/-! ### Values -/

/-- Nodes without an argument, and the greatest depth of one. -/
structure Measures (js : List Js) (d : ℕ) : Prop where
  collects : Collects js []
  depth : ∃ e : ℤ, Js.maxDepth js = some e ∧ max 0 e = d

theorem measures_nil : Measures [] 0 := ⟨collects_nil, -1, rfl, by decide⟩

theorem Measures.cons {j : Js} {js : List Js} {d e : ℕ} (hj : Measures [j] d)
    (hjs : Measures js e) : Measures (j :: js) (max d e) := by
  obtain ⟨f, hf, hd⟩ := hj.depth
  obtain ⟨g, hg, he⟩ := hjs.depth
  simp only [Js.maxDepth, Option.map_some] at hf
  obtain ⟨own, hown, hmax⟩ := Option.bind_eq_some_iff.mp hf
  have hmax := Option.some.inj hmax
  refine ⟨hj.collects.cons hjs.collects, max own g, ?_, ?_⟩
  · rw [Js.maxDepth, hown, Option.bind_some, hg, Option.map_some]
  · push_cast
    omega

theorem measures_array {items : List Js} {d : ℕ} (h : Measures items d) :
    Measures [.array items] d := by
  obtain ⟨e, he, hd⟩ := h.depth
  refine ⟨collects_array h.collects, max e (-1), ?_, by omega⟩
  rw [Js.maxDepth, Js.getDepth, he]
  rfl

theorem measures_of_getDepth {j : Js} {d : ℕ} (hj : Collects [j] [])
    (hd : j.getDepth = some (d : ℤ)) : Measures [j] d := by
  refine ⟨hj, max d (-1), ?_, by omega⟩
  rw [Js.maxDepth, hd]
  rfl

/-- A node that is no object field is as deep as its properties. -/
theorem measures_node {kind : String} (hfield : kind ≠ "ObjectField") (harg : kind ≠ "Argument")
    {props : List (String × Js)} {d : ℕ} (h : Measures (props.map Prod.snd) d) :
    Measures [node kind props] d ∧ (node kind props).getDepth = some (d : ℤ) := by
  obtain ⟨e, he, hd⟩ := h.depth
  have hnode := getDepth_node hfield he
  rw [hd] at hnode
  exact ⟨measures_of_getDepth (collects_node harg (Or.inl hfield) h.collects) hnode, hnode⟩

theorem measures_scalar (s : Scalar) : Measures [.scalar s] 0 :=
  ⟨collects_scalar s, 0, rfl, rfl⟩

theorem measures_scalars {js : List Js} (h : ∀ j ∈ js, ∃ s, j = .scalar s) : Measures js 0 := by
  induction js with
  | nil => exact measures_nil
  | cons j js ih =>
    obtain ⟨⟨s, rfl⟩, hjs⟩ := List.forall_mem_cons.mp h
    exact (measures_scalar s).cons (ih hjs)

theorem measures_nameNode (name : String) : Measures [nameNode name] 0 := by
  have hvalue : Measures ([("value", Js.scalar (.string name))].map Prod.snd) 0 :=
    measures_scalar _
  exact (measures_node (by decide) (by decide) hvalue).1

theorem measures_objectField {name : String} (hname : IsName name) {value : Js} {d : ℕ}
    (h : Measures [value] d) :
    Measures [objectFieldNode name value] ((if isOperator name then 0 else 1) + d) := by
  obtain ⟨e, he, hd⟩ := ((measures_nameNode name).cons h).depth
  have hprops : Collects ([("name", nameNode name), ("value", value)].map Prod.snd) [] :=
    (collects_nameNode name).cons h.collects
  have hown : ownDepth [("kind", .scalar (.string "ObjectField")), ("name", nameNode name),
      ("value", value)] = some (if isOperator name then 0 else 1) := by
    have hkind : hasKind [("kind", .scalar (.string "ObjectField")), ("name", nameNode name),
        ("value", value)] "ObjectField" = true := rfl
    have hvalue : nameValue [("kind", .scalar (.string "ObjectField")), ("name", nameNode name),
        ("value", value)] = some name := rfl
    rw [ownDepth, hkind, if_pos rfl, hvalue, Option.map_some, JsLemmas.matchesOperator_eq hname]
  refine measures_of_getDepth (collects_node (by decide) (Or.inr ⟨name, _, hname, rfl⟩) hprops) ?_
  rw [objectFieldNode, node, Js.getDepth, hown, JsLemmas.maxDepthOfProps_eq, List.map_cons,
    Js.maxDepth, Js.getDepth, Option.bind_some, Option.bind_some]
  have hrest : Js.maxDepth (List.map Prod.snd [("name", nameNode name), ("value", value)]) =
      some e := he
  rw [hrest, Option.map_some, Option.map_some, hd, Nat.zero_max]
  push_cast
  rfl

mutual

theorem measures_value (v : Value) {j : Js} (h : v.Shown j) :
    Measures [j] v.getDepth ∧ j.getDepth = some (v.getDepth : ℤ) := by
  cases v with
  | var name =>
    obtain ⟨-, rfl⟩ := h
    exact measures_node (by decide) (by decide) (measures_nameNode name)
  | literal number =>
    obtain ⟨kind, props, hkind, hprops, rfl⟩ := h
    have hne : ∀ kind ∈ literalKinds, kind ≠ "ObjectField" ∧ kind ≠ "Argument" := by decide
    exact measures_node (hne kind hkind).1 (hne kind hkind).2 (measures_scalars hprops)
  | list values =>
    obtain ⟨items, hitems, rfl⟩ := h
    exact measures_node (by decide) (by decide) (measures_array (measures_values values hitems))
  | object fields =>
    obtain ⟨items, hitems, rfl⟩ := h
    exact measures_node (by decide) (by decide) (measures_array (measures_fields fields hitems))

theorem measures_values (vs : List Value) {js : List Js} (h : Value.ShownList vs js) :
    Measures js (Value.depthOfList vs) := by
  cases vs with
  | nil =>
    obtain rfl := h
    exact measures_nil
  | cons v vs =>
    obtain ⟨i, is, hi, his, rfl⟩ := h
    exact (measures_value v hi).1.cons (measures_values vs his)

theorem measures_fields (fs : List (String × Value)) {js : List Js}
    (h : Value.ShownFields fs js) : Measures js (Value.depthOfFields fs) := by
  match fs, h with
  | [], h =>
    obtain rfl := h
    exact measures_nil
  | (name, v) :: fs, h =>
    obtain ⟨i, is, hname, hi, his, rfl⟩ := h
    exact (measures_objectField hname (measures_value v hi).1).cons (measures_fields fs his)

end

/-! ### Selections -/

/-- The `where` arguments among some nodes of the syntax tree. -/
def whereArguments (ns : List Node) : List Argument := ns.filterMap Node.whereArgument?

theorem whereArguments_append (ns ms : List Node) :
    whereArguments (ns ++ ms) = whereArguments ns ++ whereArguments ms :=
  List.filterMap_append

mutual

theorem whereArguments_value (v : Value) : whereArguments v.nodes = [] := by
  cases v with
  | var name => rfl
  | literal number => rfl
  | list values => exact whereArguments_values values
  | object fields => exact whereArguments_fields fields

theorem whereArguments_values (vs : List Value) : whereArguments (Value.nodesOfList vs) = [] := by
  cases vs with
  | nil => rfl
  | cons v vs =>
    rw [Value.nodesOfList, whereArguments_append, whereArguments_value, whereArguments_values vs]
    rfl

theorem whereArguments_fields (fs : List (String × Value)) :
    whereArguments (Value.nodesOfFields fs) = [] := by
  match fs with
  | [] => rfl
  | (name, v) :: fs =>
    rw [Value.nodesOfFields, whereArguments_append, whereArguments_value]
    exact whereArguments_fields fs

end

theorem isWhereArgument_argument (a : Argument) (value : Js) :
    (node "Argument" [("name", nameNode a.name), ("value", value)]).isWhereArgument =
      decide (a.name = "where") := by
  have hname : nameValue [("kind", .scalar (.string "Argument")), ("name", nameNode a.name),
      ("value", value)] = some a.name := rfl
  rw [node, Js.isWhereArgument, hasKind_node, hname]
  simp

/-- An argument: nothing inside it, and the argument itself. -/
theorem collects_argument {a : Argument} {j : Js} (h : a.Shown j) :
    Collects [j] (whereArguments (a.value.nodes ++ [.argument a])) := by
  obtain ⟨value, hname, hvalue, rfl⟩ := id h
  have hprops : Collects ([("name", nameNode a.name), ("value", value)].map Prod.snd) [] :=
    (collects_nameNode a.name).cons (measures_value a.value hvalue).1.collects
  obtain ⟨us, hus, hshown⟩ := hprops.found
  obtain rfl := List.forall₂_nil_left_iff.mp hshown
  have hnode : (node "Argument" [("name", nameNode a.name), ("value", value)]).IsAst :=
    isAst_node (Or.inr ⟨a.name, _, hname, rfl⟩) hprops.ast
  have hitself := whereItself_eq hnode
  have hws : whereArguments (a.value.nodes ++ [.argument a]) =
      if a.name = "where" then [a] else [] := by
    rw [whereArguments_append, whereArguments_value, List.nil_append]
    by_cases hwhere : a.name = "where" <;> simp [whereArguments, Node.whereArgument?, hwhere]
  rw [isWhereArgument_argument] at hitself
  refine ⟨List.forall_mem_singleton.mpr hnode, if a.name = "where" then
    [node "Argument" [("name", nameNode a.name), ("value", value)]] else [], ?_, ?_⟩
  · rw [Js.filterList, filterWhereQuery_node "Argument" hus, Option.bind_some, hitself]
    simp [Js.filterList]
  · rw [hws]
    split
    · exact .cons h .nil
    · exact .nil

/-- Nodes that show some things in turn. -/
theorem collects_forall₂ {α : Type} {shown : α → Js → Prop} {nodes : α → List Node}
    (h : ∀ x j, shown x j → Collects [j] (whereArguments (nodes x))) {xs : List α} {js : List Js}
    (hxs : List.Forall₂ shown xs js) : Collects js (whereArguments (xs.flatMap nodes)) := by
  induction hxs with
  | nil => exact collects_nil
  | cons hx hxs ih =>
    rw [List.flatMap_cons, whereArguments_append]
    exact (h _ _ hx).cons ih

theorem collects_arguments {args : List Argument} {js : List Js}
    (h : List.Forall₂ Argument.Shown args js) :
    Collects js (whereArguments (argumentNodes args)) :=
  @collects_forall₂ _ _ (fun a : Argument => a.value.nodes ++ [Node.argument a])
    (fun _ _ => collects_argument) _ _ h

theorem collects_directive {d : Directive} {j : Js} (h : d.Shown j) :
    Collects [j] (whereArguments (argumentNodes d.arguments)) := by
  obtain ⟨args, -, hargs, rfl⟩ := h
  exact collects_node (by decide) (Or.inl (by decide))
    ((collects_nameNode d.name).cons (collects_array (collects_arguments hargs)))

theorem collects_directives {ds : List Directive} {js : List Js}
    (h : List.Forall₂ Directive.Shown ds js) :
    Collects js (whereArguments (directiveNodes ds)) :=
  @collects_forall₂ _ _ (fun d : Directive => argumentNodes d.arguments)
    (fun _ _ => collects_directive) _ _ h

theorem collects_alias {j : Js} (h : AliasShown j) : Collects [j] [] := by
  rcases h with rfl | ⟨name, -, rfl⟩
  · exact collects_scalar _
  · exact collects_nameNode name

theorem collects_typeCondition {j : Js} (h : TypeConditionShown j) : Collects [j] [] := by
  rcases h with rfl | ⟨name, -, rfl⟩
  · exact collects_scalar _
  · exact collects_node (by decide) (Or.inl (by decide)) (collects_nameNode name)

theorem collects_selectionSet {items : List Js} {ws : List Argument} (h : Collects items ws) :
    Collects [node "SelectionSet" [("selections", .array items)]] ws :=
  collects_node (by decide) (Or.inl (by decide)) (collects_array h)

mutual

theorem collects_selection (s : Selection) {j : Js} (h : s.Shown j) :
    Collects [j] (whereArguments s.nodes) := by
  cases s with
  | field name arguments directives selectionSet =>
    obtain ⟨aliased, args, dirs, set, -, haliased, hargs, hdirs, hset, rfl⟩ := h
    have hset' : Collects [set] (whereArguments (Selection.nodesOfList selectionSet)) := by
      rcases hset with ⟨rfl, rfl⟩ | ⟨-, items, hitems, rfl⟩
      · exact collects_scalar _
      · exact collects_selectionSet (collects_selections selectionSet hitems)
    rw [Selection.nodes, whereArguments_append, whereArguments_append, List.append_assoc]
    exact collects_node (by decide) (Or.inl (by decide)) ((collects_alias haliased).cons
      ((collects_nameNode name).cons ((collects_array (collects_arguments hargs)).cons
        ((collects_array (collects_directives hdirs)).cons hset'))))
  | fragmentSpread name directives =>
    obtain ⟨dirs, -, hdirs, rfl⟩ := h
    exact collects_node (by decide) (Or.inl (by decide))
      ((collects_nameNode name).cons (collects_array (collects_directives hdirs)))
  | inlineFragment directives selectionSet =>
    obtain ⟨condition, dirs, items, hcondition, hdirs, hitems, rfl⟩ := h
    rw [Selection.nodes, whereArguments_append]
    exact collects_node (by decide) (Or.inl (by decide)) ((collects_typeCondition hcondition).cons
      ((collects_array (collects_directives hdirs)).cons
        (collects_selectionSet (collects_selections selectionSet hitems))))

theorem collects_selections (ss : List Selection) {js : List Js}
    (h : Selection.ShownList ss js) :
    Collects js (whereArguments (Selection.nodesOfList ss)) := by
  cases ss with
  | nil =>
    obtain rfl := h
    exact collects_nil
  | cons s ss =>
    obtain ⟨i, is, hi, his, rfl⟩ := h
    rw [Selection.nodesOfList, List.append_cons, whereArguments_append, whereArguments_append]
    have hself : whereArguments [.selection s] = [] := rfl
    rw [hself, List.append_nil]
    exact (collects_selection s hi).cons (collects_selections ss his)

end

end WhereDepthLemmas

open WhereDepthLemmas

/-- `Utils.getDepth` of an argument is the depth of its value in the syntax tree. -/
theorem getDepth_shown {a : Argument} {j : Js} (h : a.Shown j) :
    j.IsAst ∧ j.getDepth = some (a.getDepth : ℤ) := by
  obtain ⟨value, hname, hvalue, rfl⟩ := id h
  refine ⟨(collects_argument h).ast _ (List.mem_singleton_self _), ?_⟩
  obtain ⟨e, he, hd⟩ :=
    ((measures_nameNode a.name).cons (measures_value a.value hvalue).1).depth
  rw [Nat.zero_max] at hd
  rw [Argument.getDepth, ← hd]
  exact getDepth_node (by decide) he

/-- `Utils.filterWhereQuery` of a selection set finds the `where` arguments of the syntax tree. -/
theorem filterWhereQuery_shown {ss : List Selection} {j : Js} (h : SelectionSetShown ss j) :
    j.IsAst ∧ ∃ us, j.filterWhereQuery = some us ∧
      List.Forall₂ Argument.Shown (filterWhereQuery ss) us := by
  rcases h with ⟨rfl, rfl⟩ | ⟨items, hitems, rfl⟩
  · exact ⟨.scalar _, [], rfl, .nil⟩
  · have hcollects := collects_selections ss hitems
    obtain ⟨us, hus, hshown⟩ := (collects_array hcollects).found
    exact ⟨(collects_selectionSet hcollects).ast _ (List.mem_singleton_self _), us,
      filterWhereQuery_node _ hus, hshown⟩

/-! ## 3. Queries without variables -/

/-- The text has no variable: none of its tokens is a `$`. -/
def Literal (query : String) : Prop :=
  ∃ pieces, lex query.toList = some pieces ∧ .punctuator '$' ∉ pieces

instance (query : String) : Decidable (Literal query) :=
  decidable_of_iff ((lex query.toList).any fun pieces => .punctuator '$' ∉ pieces)
    (by simp [Literal, Option.any_eq_true])

/-- The transactions with an attribute. -/
def queryTransaction (chain : String) : String :=
  "queryqueryTransaction($" ++ (
    "limit:Int=100$order:order_by=desc$compositeKey:String=null$value:String=null$key:Str" ++
    "ing=null$compositeKeyIn:[String!]=null$valueIn:[String!]=null$keyIn:[String!]=null$h" ++
    "eightGT:Int=null$heightLT:Int=null$indexGT:Int=null$indexLT:Int=null$hash:String=nul" ++
    "l$height:Int=null)\x7b" ++
    chain ++
    "\x7btransaction(limit:$limitwhere:\x7bhash:\x7b_eq:$hash\x7dheight:\x7b_eq:$height" ++
    "\x7devent_attribute_index:\x7bvalue:\x7b_eq:$value,_in:$valueIn\x7dcomposite_key:" ++
    "\x7b_eq:$compositeKey,_in:$compositeKeyIn\x7dkey:\x7b_eq:$key,_in:$keyIn\x7d\x7d_and" ++
    ":[\x7bheight:\x7b_gt:$heightGT\x7d\x7d\x7bindex:\x7b_gt:$indexGT\x7d\x7d\x7bheight:" ++
    "\x7b_lt:$heightLT\x7d\x7d\x7bindex:\x7b_lt:$indexLT\x7d\x7d]\x7dorder_by:[\x7bheight" ++
    ":$order\x7d,\x7bindex:$order\x7d])\x7bidheighthashtimestampcodegas_usedgas_wanteddat" ++
    "a\x7d\x7d\x7d")

/-- The transactions with two attributes. -/
def queryTransactionMultiCondition (chain : String) : String :=
  "queryqueryTransactionMultiCondition($" ++ (
    "limit:Int=100$order:order_by=desc$compositeKey:String=null$value:String=null$key:Str" ++
    "ing=null$compositeKey2:String=null$value2:String=null$key2:String=null$compositeKeyI" ++
    "n:[String!]=null$valueIn:[String!]=null$keyIn:[String!]=null$compositeKeyIn2:[String" ++
    "!]=null$valueIn2:[String!]=null$keyIn2:[String!]=null$heightGT:Int=null$heightLT:Int" ++
    "=null$indexGT:Int=null$indexLT:Int=null$hash:String=null$height:Int=null)\x7b" ++
    chain ++
    "\x7btransaction(limit:$limitwhere:\x7bhash:\x7b_eq:$hash\x7dheight:\x7b_eq:$height" ++
    "\x7devent_attribute_index:\x7bvalue:\x7b_eq:$value,_in:$valueIn\x7dcomposite_key:" ++
    "\x7b_eq:$compositeKey,_in:$compositeKeyIn\x7dkey:\x7b_eq:$key,_in:$keyIn\x7d\x7d_and" ++
    ":[\x7bheight:\x7b_gt:$heightGT\x7d\x7d\x7bindex:\x7b_gt:$indexGT\x7d\x7d\x7bheight:" ++
    "\x7b_lt:$heightLT\x7d\x7d\x7bindex:\x7b_lt:$indexLT\x7d\x7d\x7bevent_attribute_index" ++
    ":\x7bvalue:\x7b_eq:$value2,_in:$valueIn2\x7dcomposite_key:\x7b_eq:$compositeKey2,_in" ++
    ":$compositeKeyIn2\x7dkey:\x7b_eq:$key2,_in:$keyIn2\x7d\x7d\x7d]\x7dorder_by:[\x7bhei" ++
    "ght:$order\x7d,\x7bindex:$order\x7d])\x7bidheighthashtimestampcodegas_usedgas_wanted" ++
    "data\x7d\x7d\x7d")

/-- The transactions of a channel. -/
def queryListSequence (chain : String) : String :=
  "queryqueryListSequence($" ++ (
    "limit:Int,$compositeKey:[String!]=\"\",$value:String=\"\",$channel:String=\"\")\x7b" ++
    chain ++
    "\x7btransaction(limit:$limit,where:\x7bevent_attributes:\x7bcomposite_key:\x7b_in:[" ++
    "\"acknowledge_packet.packet_src_channel\",\"send_packet.packet_src_channel\",\"recv_" ++
    "packet.packet_src_channel\"]\x7d,value:\x7b_eq:$channel\x7d\x7d,_and:\x7bevent_attri" ++
    "butes:\x7bcomposite_key:\x7b_in:$compositeKey\x7d,value:\x7b_eq:$value\x7d\x7d\x7d" ++
    "\x7d)\x7bheighthashtimestampcodegas_usedgas_wanteddataevent_attributes(where:\x7b_an" ++
    "d:\x7bcomposite_key:\x7b_eq:\"transfer.amount\"\x7d,value:\x7b_like:\"%ibc%\"\x7d" ++
    "\x7d\x7d)\x7bvaluecomposite_keykey\x7d\x7d\x7d\x7d")

/-- `graphql-query-whitelist.json` -/
def queryWhitelist : List String :=
  [queryTransaction "auratestnet", queryTransaction "serenity",
    queryTransactionMultiCondition "auratestnet", queryTransactionMultiCondition "serenity",
    queryListSequence "auratestnet", queryListSequence "serenity"]

/-- A `$` before the first quote and the first `#`. -/
def HasVariable (text : List Char) : Prop := '$' ∈ text.takeWhile fun c => c ≠ '"' ∧ c ≠ '#'

namespace WhereDepthLemmas

theorem hasVariable_cons (c : Char) (cs : List Char) :
    HasVariable (c :: cs) ↔ c ≠ '"' ∧ c ≠ '#' ∧ ('$' = c ∨ HasVariable cs) := by
  unfold HasVariable
  rw [List.takeWhile_cons]
  split
  case isTrue h =>
    obtain ⟨hquote, hcomment⟩ := of_decide_eq_true h
    rw [List.mem_cons]
    exact ⟨fun hd => ⟨hquote, hcomment, hd⟩, fun hd => hd.2.2⟩
  case isFalse h =>
    refine iff_of_false List.not_mem_nil fun hc => h ?_
    exact decide_eq_true ⟨hc.1, hc.2.1⟩

theorem hasVariable_append {cs : List Char} (h : HasVariable cs) (ds : List Char) :
    HasVariable (cs ++ ds) := by
  induction cs with
  | nil => cases h
  | cons c cs ih =>
    obtain ⟨hquote, hcomment, hc⟩ := (hasVariable_cons c cs).mp h
    exact (hasVariable_cons c _).mpr ⟨hquote, hcomment, hc.imp_right ih⟩

theorem hasVariable_text {text : String} (h : HasVariable text.toList) (rest : String) :
    HasVariable (text ++ rest).toList := by
  rw [String.toList_append]
  exact hasVariable_append h rest.toList

/-- Without the characters that are left out, no quote and no `#` is nearer. -/
theorem hasVariable_of_filter {keep : Char → Bool} (hquote : keep '"' = true)
    (hcomment : keep '#' = true) {cs : List Char} (h : HasVariable (cs.filter keep)) :
    HasVariable cs := by
  induction cs with
  | nil => exact h
  | cons c cs ih =>
    rw [List.filter_cons] at h
    split at h
    case isTrue =>
      obtain ⟨hq, hc, hd⟩ := (hasVariable_cons c _).mp h
      exact (hasVariable_cons c _).mpr ⟨hq, hc, hd.imp_right ih⟩
    case isFalse hleft =>
      refine (hasVariable_cons c _).mpr ⟨?_, ?_, Or.inr (ih h)⟩
      · rintro rfl
        exact hleft hquote
      · rintro rfl
        exact hleft hcomment

/-- The whitelist only has queries with variables. -/
theorem hasVariable_queryWhitelist : ∀ entry ∈ queryWhitelist, HasVariable entry.toList := by
  have htransaction : HasVariable "queryqueryTransaction($".toList := by
    unfold HasVariable
    decide +kernel
  have hmulti : HasVariable "queryqueryTransactionMultiCondition($".toList := by
    unfold HasVariable
    decide +kernel
  have hsequence : HasVariable "queryqueryListSequence($".toList := by
    unfold HasVariable
    decide +kernel
  intro entry hentry
  simp only [queryWhitelist, List.mem_cons, List.not_mem_nil, or_false] at hentry
  rcases hentry with rfl | rfl | rfl | rfl | rfl | rfl
  · exact hasVariable_text htransaction _
  · exact hasVariable_text htransaction _
  · exact hasVariable_text hmulti _
  · exact hasVariable_text hmulti _
  · exact hasVariable_text hsequence _
  · exact hasVariable_text hsequence _

end WhereDepthLemmas

/-- A query without variables is not on the whitelist. -/
theorem not_whitelisted {cfg : GateConfig} (hlist : cfg.queryWhitelist = queryWhitelist)
    {query : String} (h : Literal query) : whitelisted cfg query = false := by
  rw [whitelisted, hlist, List.any_eq_false]
  intro entry hentry hquery
  obtain ⟨pieces, hlex, hdollar⟩ := h
  have hvar := hasVariable_queryWhitelist entry hentry
  rw [of_decide_eq_true hquery] at hvar
  have hvar' := hasVariable_of_filter (by decide) (by decide)
    (hasVariable_of_filter (by decide) (by decide) hvar)
  exact hdollar (dollar_mem_lex hlex hvar')

/-! ## 4. The limits -/

namespace WhereDepthLemmas

/-- The depth of an argument bounds all ways through it. -/
theorem countFields_le {a : Argument} {j : Js} (h : a.Shown j) {limit : ℕ}
    (hdepth : a.getDepth ≤ limit) {way : List Js} (hway : RootToLeaf j way) :
    countFields way ≤ limit := by
  obtain ⟨hast, hd⟩ := getDepth_shown h
  obtain ⟨d, hd', hmax⟩ := JsLemmas.exists_getDepth hast
  obtain rfl := Option.some.inj (hd.symm.trans hd')
  have hle := hmax.bound j (List.mem_singleton_self j) way hway
  omega

end WhereDepthLemmas

/-- `getDepth` and `filterWhereQuery` are exact, and every query without variables that is
forwarded keeps the limits: on every way through the `where` argument of a field of the second
level, and through every `where` argument below it. (Of several arguments of one name the first
counts; the names of the arguments of a field are distinct.) -/
theorem where_depth_exact :
    (∀ props, (Js.object props).IsAst → ∃ d : ℤ, (Js.object props).getDepth = some d ∧
      IsGreatest {n : ℤ | ∃ way, RootToLeaf (.object props) way ∧ n = countFields way} d) ∧
    (∀ v : Js, v.IsAst → ∃ (ws : List Js) (addresses : List (List ℕ)),
      v.filterWhereQuery = some ws ∧ addresses.Nodup ∧
        (∀ a, a ∈ addresses ↔ a ≠ [] ∧ ∃ w, v.at? a = some w ∧ w.isWhereArgument) ∧
        addresses.map v.at? = ws.map some) ∧
    ∀ (cfg : GateConfig) (gql : String → Option Document) (query : String) (doc : Document),
      cfg.queryWhitelist = queryWhitelist → gql query = some doc → Literal query →
      handleGraphQLQuery cfg gql query = .forwarded →
      ∀ s ∈ doc.first.selectionSet, ∀ sel ∈ s.selectionSet,
        (∀ w j, sel.whereArgument = some w → w.Shown j → ∀ way, RootToLeaf j way →
          countFields way ≤ cfg.rootWhereDepthLimit + 1) ∧
        ∀ j, SelectionSetShown sel.selectionSet j → ∀ a w, a ≠ [] → j.at? a = some w →
          w.isWhereArgument → ∀ way, RootToLeaf w way →
            countFields way ≤ cfg.subWhereDepthLimit + 1 := by
  refine ⟨fun props => getDepth_isGreatest, fun v => filterWhereQuery_spec, ?_⟩
  intro cfg gql query doc hlist hdoc hliteral hforwarded s hs sel hsel
  obtain ⟨-, -, hok⟩ := (handleGraphQLQuery_forwarded_iff cfg hdoc
    (not_whitelisted hlist hliteral)).mp hforwarded
  have hlimits := (hok s hs).2 sel hsel
  constructor
  · intro w j hw hj way hway
    exact countFields_le hj (hlimits.rootWhere w hw) hway
  · intro j hj a w ha hat hw way hway
    obtain ⟨hast, us, hus, hshown⟩ := filterWhereQuery_shown hj
    obtain ⟨ws, addresses, hws, -, hmem, hvalues⟩ := filterWhereQuery_spec hast
    obtain rfl := Option.some.inj (hus.symm.trans hws)
    -- the argument is one of those that the walk returns
    have hin : some w ∈ us.map some := by
      rw [← hvalues, ← hat]
      exact List.mem_map_of_mem ((hmem a).mpr ⟨ha, w, hat, hw⟩)
    obtain ⟨w', hw', hww'⟩ := List.mem_map.mp hin
    obtain rfl := Option.some.inj hww'
    obtain ⟨b, hb, hbw⟩ := Paired.exists_left hshown hw'
    exact countFields_le hbw (hlimits.subWhere b hb) hway

/-- The blocks of a height, with their hashes. -/
def blockQuery : String :=
  "\x7bauratestnet \x7bblock(where: \x7bheight: {_eq: 1}\x7d) \x7bhash\x7d\x7d\x7d"

def blockWhere : Argument :=
  ⟨"where", .object [("height", .object [("_eq", .literal (some 1))])]⟩

def blockDocument : Document where
  first := .query [] [.field "auratestnet" [] []
    [.field "block" [blockWhere] [] [.field "hash" [] [] []]]]
  rest := []

def oneNode : Js := node "IntValue" [("value", .scalar (.string "1"))]

def heightNode : Js :=
  objectFieldNode "height" (node "ObjectValue" [("fields", .array [objectFieldNode "_eq" oneNode])])

def blockWhereNode : Js :=
  node "Argument" [("name", nameNode "where"),
    ("value", node "ObjectValue" [("fields", .array [heightNode])])]

theorem shown_blockWhere : blockWhere.Shown blockWhereNode := by
  have hone : Value.Shown (.literal (some 1)) oneNode :=
    ⟨"IntValue", _, by decide, List.forall_mem_singleton.mpr ⟨_, rfl⟩, rfl⟩
  refine ⟨_, List.all_eq_true.mp (by decide +kernel), ⟨_, ?_, rfl⟩, rfl⟩
  refine ⟨_, [], List.all_eq_true.mp (by decide +kernel), ⟨_, ?_, rfl⟩, rfl, rfl⟩
  exact ⟨_, [], List.all_eq_true.mp (by decide +kernel), hone, rfl, rfl⟩

/-- The whitelist of the repository. -/
def whitelistApi : GateConfig := { graphiqlApi with queryWhitelist := queryWhitelist }

theorem forwarded_blockQuery :
    handleGraphQLQuery whitelistApi (parsedOne blockQuery blockDocument) blockQuery =
      .forwarded := by
  have hliteral : Literal blockQuery := by decide +kernel
  refine (handleGraphQLQuery_forwarded_iff whitelistApi (if_pos rfl)
    (not_whitelisted rfl hliteral)).mpr ⟨?_, by decide +kernel, ?_⟩
  · exact List.forall_mem_singleton.mpr rfl
  · exact (selections_none_iff whitelistApi _).mp rfl

theorem where_depth_exact_block :
    ∀ way, RootToLeaf blockWhereNode way → countFields way ≤ 3 := by
  have hliteral : Literal blockQuery := by decide +kernel
  exact ((where_depth_exact.2.2 whitelistApi (parsedOne blockQuery blockDocument) blockQuery
    blockDocument rfl (if_pos rfl) hliteral forwarded_blockQuery _ List.mem_cons_self _
      List.mem_cons_self).1 blockWhere blockWhereNode rfl shown_blockWhere)
end Erascope.Graphql
