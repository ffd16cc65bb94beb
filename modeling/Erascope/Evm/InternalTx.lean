import Mathlib.Tactic
import Erascope.Lib.Fold
import Erascope.Lib.Number
import Erascope.Lib.Text
import Erascope.Lib.Tree

/-!
# Internal transactions

The model of `buildEvmInternalTransaction` in `evm_crawl_internal_tx.service.ts`. The trace of an
EVM transaction is the tree of its calls; every call below the root becomes a row, whose
`type_trace_address` spells the way to it: `CALL[0]_DELEGATECALL[2]_CREATE` is a `CREATE` called by
the third call of the first call of the root.

The recursion carries the address of the parent without the parent's type, so the address of a row
is not a prefix of those below it. Cut at `_`, the last piece is the type of the call and every
other one a type with the index taken from there.

Results:
1. `decode_address`: the address of a row gives back the path to its call.
2. `internal_transactions_mirror`: a trace with at least one inner call has one row per inner call
   in pre-order, all with different addresses, and the tree of the types is rebuilt from them.
   `lone_root_throws`: without inner calls the function throws, and no row would tell the type of
   the root. `jobHandler` skips such traces (`internalTxSave_eq`).
-/

namespace Erascope.Evm

/-! ## 1. The function -/

/-- A call of a trace, without the calls that it makes. Quantities are written in hexadecimal. -/
structure Frame where
  type : String
  fromAddress : Option String
  toAddress : Option String
  value : Option ℕ
  input : String
  gas : ℕ
  gasUsed : ℕ
  error : Option String
deriving DecidableEq, Repr

/-- The result of `callTracer`. It leaves `calls` out when there are none. -/
abbrev Call := Tree Frame

/-- A row of `evm_internal_transaction`. -/
structure EvmInternalTransaction where
  evm_tx_id : ℕ
  type_trace_address : String
  type : String
  fromAddress : Option String
  toAddress : Option String
  value : ℕ
  input : String
  gas : ℕ
  gas_used : ℕ
  error : Option String
deriving DecidableEq, Repr

/-- The row of a call with the given address; `parseInt` gives doubles. -/
def internalTx (tracerId : ℕ) (type_trace_address : String) (call : Frame) :
    EvmInternalTransaction :=
  { evm_tx_id := tracerId
    type_trace_address := type_trace_address
    type := call.type
    fromAddress := call.fromAddress
    toAddress := call.toAddress
    value := Number.toDouble (call.value.getD 0)
    input := call.input
    gas := Number.toDouble call.gas
    gas_used := Number.toDouble call.gasUsed
    error := call.error }

/-- `typeTraceAddress` of the child `stackTraceIndex`: null and the empty text are false. -/
def typeTraceAddressOf (currentTypeTraceAddress : Option String) (parentType : String)
    (stackTraceIndex : ℕ) : String :=
  match currentTypeTraceAddress with
  | none => parentType ++ "[" ++ stackTraceIndex.repr ++ "]"
  | some current =>
    if current = "" then parentType ++ "[" ++ stackTraceIndex.repr ++ "]"
    else current ++ "_" ++ (parentType ++ "[" ++ stackTraceIndex.repr ++ "]")

mutual

/-- The body of the loop in `buildEvmInternalTx`: the row of a call and those below it. -/
def buildCall (tracerId : ℕ) (typeTraceAddress : String) : Call → List EvmInternalTransaction
  | .node call calls =>
    internalTx tracerId (typeTraceAddress ++ "_" ++ call.type) call ::
      buildEvmInternalTx tracerId (some typeTraceAddress) call.type 0 calls

/-- `buildEvmInternalTx`, from the index `stackTraceIndex` on. -/
def buildEvmInternalTx (tracerId : ℕ) (currentTypeTraceAddress : Option String)
    (parentType : String) (stackTraceIndex : ℕ) : List Call → List EvmInternalTransaction
  | [] => []
  | call :: rest =>
    buildCall tracerId (typeTraceAddressOf currentTypeTraceAddress parentType stackTraceIndex) call ++
      buildEvmInternalTx tracerId currentTypeTraceAddress parentType (stackTraceIndex + 1) rest

end

/-- `buildEvmInternalTransaction`. Without `calls` it throws, because `undefined` has no
`forEach`. -/
def buildEvmInternalTransaction (tracerResult : Call) (tracerId : ℕ) :
    Option (List EvmInternalTransaction) :=
  match tracerResult.children with
  | [] => none
  | calls => some (buildEvmInternalTx tracerId none tracerResult.label.type 0 calls)

/-- The answer of `debug_traceTransaction` for the row with the given id. -/
structure Tracer where
  id : ℕ
  result : Option Call

/-- The rows that `jobHandler` collects from the answers: a trace without `calls` is skipped. -/
def internalTxSave (response : List Tracer) : Option (List EvmInternalTransaction) := do
  let rows ← response.mapM fun tracer =>
    match tracer.result with
    | some (.node call (c :: calls)) => buildEvmInternalTransaction (.node call (c :: calls)) tracer.id
    | _ => some []
  return rows.flatten

/-! ## 2. Addresses -/

/-- A type and the index of the child taken from there. -/
def encodeStep (step : String × ℕ) : String := step.1 ++ "[" ++ step.2.repr ++ "]"

/-- The address of the call at the end of a path. -/
def encode (p : Path String) : String := "_".intercalate (p.steps.map encodeStep ++ [p.label])

/-- The type and the index of a piece. -/
def decodeStep (piece : String) : Option (String × ℕ) :=
  let type := piece.toList.takeWhile (· ≠ '[')
  let index := (piece.toList.drop (type.length + 1)).dropLast
  if index.all Char.isDigit then some (String.ofList type, Nat.ofDigitChars 10 index 0) else none

/-- The path of an address. -/
def decode (address : String) : Option (Path String) := do
  let pieces := address.splitOn "_"
  let steps ← pieces.dropLast.mapM decodeStep
  let label ← pieces.getLast?
  return ⟨steps, label⟩

/-- The types of the calls of a trace, from the addresses of its rows. -/
def rebuildTypes (addresses : List String) : Option (Tree String) := do
  let paths ← addresses.mapM decode
  Tree.rebuild paths

/-- The type has none of the characters that structure an address. -/
def Plain (type : String) : Prop := '[' ∉ type.toList ∧ ']' ∉ type.toList ∧ '_' ∉ type.toList

/-- The path to a call in types. -/
def typePath (p : Path Frame) : Path String := p.map Frame.type

/-- The row of the call at the end of a path. -/
def rowOf (tracerId : ℕ) (p : Path Frame) : EvmInternalTransaction :=
  internalTx tracerId (encode (typePath p)) p.label

/-- The rows of a trace mirror the tree of its calls: one row for each call below the root, in
pre-order; the address of a row decodes to the path to its call; addresses are different; and from
the set of the addresses, listed in any way, the tree of the types is rebuilt. -/
def Mirrors (trace : Call) (tracerId : ℕ) : Prop :=
  ∃ rows, buildEvmInternalTransaction trace tracerId = some rows ∧
    rows = trace.pathsBelow.map (rowOf tracerId) ∧
    (∀ p ∈ trace.pathsBelow, decode (rowOf tracerId p).type_trace_address = some (typePath p)) ∧
    (rows.map EvmInternalTransaction.type_trace_address).Nodup ∧
    ∀ addresses : List String,
      (∀ a, a ∈ addresses ↔ a ∈ rows.map EvmInternalTransaction.type_trace_address) →
      rebuildTypes addresses = some (trace.map Frame.type)

namespace InternalTxLemmas

/-! ### The address of a row -/

theorem typeTraceAddressOf_ne (current : Option String) (parentType : String) (i : ℕ) :
    typeTraceAddressOf current parentType i ≠ "" := by
  have hbracket : ∀ a b : String, a ++ "[" ++ b ++ "]" ≠ "" := by
    intro a b h
    have := congrArg String.length h
    simp [String.length_append] at this
  unfold typeTraceAddressOf
  split
  · exact hbracket _ _
  · split
    · exact hbracket _ _
    · intro h
      have := congrArg String.length h
      simp [String.length_append] at this

/-- An address continues the one of the parent, if there is one. -/
def continued (current : Option String) (address : String) : String :=
  match current with
  | none => address
  | some current => current ++ "_" ++ address

theorem typeTraceAddressOf_eq {current : Option String} (h : current ≠ some "")
    (parentType : String) (i : ℕ) :
    typeTraceAddressOf current parentType i = continued current (encodeStep (parentType, i)) := by
  cases current with
  | none => rfl
  | some current =>
    rw [typeTraceAddressOf, if_neg fun he => h (congrArg some he)]
    rfl

theorem encode_cons (type : String) (i : ℕ) (p : Path String) :
    encode (p.cons type i) = encodeStep (type, i) ++ "_" ++ encode p := by
  obtain ⟨steps, label⟩ := p
  cases steps with
  | nil => simp [encode, Path.cons, String.intercalate_cons_cons, String.append_assoc]
  | cons step steps => simp [encode, Path.cons, String.intercalate_cons_cons, String.append_assoc]

/-- The address of a child's row continues what the address of its parent continues. -/
theorem continued_encode_cons (current : Option String) (type : String) (i : ℕ) (p : Path String) :
    continued current (encodeStep (type, i)) ++ "_" ++ encode p =
      continued current (encode (p.cons type i)) := by
  rw [encode_cons]
  cases current with
  | none => rfl
  | some current => simp only [continued, String.append_assoc]

mutual

/-- The rows of a call and of those below it. -/
theorem buildCall_eq (tracerId : ℕ) {typeTraceAddress : String} (h : typeTraceAddress ≠ "") :
    ∀ call : Call, buildCall tracerId typeTraceAddress call = call.paths.map fun p =>
      internalTx tracerId (typeTraceAddress ++ "_" ++ encode (typePath p)) p.label
  | .node frame calls => by
    rw [buildCall, Tree.paths, List.map_cons,
      buildEvmInternalTx_eq tracerId (fun he => h (Option.some.inj he)) frame 0 calls]
    rfl

/-- The rows from the index `i` on. -/
theorem buildEvmInternalTx_eq (tracerId : ℕ) {current : Option String} (h : current ≠ some "")
    (parent : Frame) (i : ℕ) : ∀ calls : List Call,
    buildEvmInternalTx tracerId current parent.type i calls =
      (Tree.pathsFrom parent i calls).map fun p =>
        internalTx tracerId (continued current (encode (typePath p))) p.label
  | [] => by rw [buildEvmInternalTx, Tree.pathsFrom, List.map_nil]
  | call :: rest => by
    rw [buildEvmInternalTx, Tree.pathsFrom, List.map_append, List.map_map,
      buildCall_eq tracerId (typeTraceAddressOf_ne _ _ _) call,
      buildEvmInternalTx_eq tracerId h parent (i + 1) rest]
    refine congrArg (· ++ _) (List.map_congr_left fun p _ => ?_)
    rw [typeTraceAddressOf_eq h, continued_encode_cons]
    rfl

end

theorem buildEvmInternalTransaction_eq (tracerId : ℕ) {trace : Call} (h : trace.children ≠ []) :
    buildEvmInternalTransaction trace tracerId = some (trace.pathsBelow.map (rowOf tracerId)) := by
  unfold buildEvmInternalTransaction
  split
  · next hnil => exact absurd hnil h
  · rw [buildEvmInternalTx_eq tracerId (by simp)]
    rfl

/-! ### Decoding -/

theorem decodeStep_encodeStep {type : String} (h : '[' ∉ type.toList) (i : ℕ) :
    decodeStep (encodeStep (type, i)) = some (type, i) := by
  have htext : (encodeStep (type, i)).toList =
      type.toList ++ '[' :: (Nat.toDigits 10 i ++ [']']) := by
    simp [encodeStep]
  have htype : (encodeStep (type, i)).toList.takeWhile (· ≠ '[') = type.toList := by
    rw [htext, List.takeWhile_append_of_pos, List.takeWhile_cons_of_neg (by simp), List.append_nil]
    intro c hc
    exact decide_eq_true fun he => h (he ▸ hc)
  have hindex : ((encodeStep (type, i)).toList.drop (type.toList.length + 1)).dropLast =
      Nat.toDigits 10 i := by
    rw [htext, ← List.drop_drop, List.drop_left, List.drop_succ_cons, List.drop_zero,
      List.dropLast_concat]
  have hdigits : (Nat.toDigits 10 i).all Char.isDigit := by
    rw [List.all_eq_true]
    exact fun c hc => Nat.isDigit_of_mem_toDigits (by decide) (by decide) hc
  rw [decodeStep, htype, hindex, if_pos hdigits, Nat.ofDigitChars_ten_toDigits,
    String.ofList_toList]

/-- No piece of an address holds the separator. -/
theorem separator_not_mem_encodeStep {type : String} (h : '_' ∉ type.toList) (i : ℕ) :
    '_' ∉ (encodeStep (type, i)).toList := by
  simp [encodeStep, h]

theorem splitOn_encode {p : Path String} (hlabel : '_' ∉ p.label.toList)
    (hsteps : ∀ step ∈ p.steps, '_' ∉ step.1.toList) :
    (encode p).splitOn "_" = p.steps.map encodeStep ++ [p.label] := by
  obtain ⟨steps, label⟩ := p
  induction steps with
  | nil =>
    rw [show encode ⟨[], label⟩ = label from rfl, show "_" = String.ofList ['_'] from rfl,
      splitOn_singleton, List.splitOn_eq_singleton hlabel]
    simp
  | cons step steps ih =>
    obtain ⟨type, i⟩ := step
    have hstep := separator_not_mem_encodeStep (hsteps (type, i) List.mem_cons_self) i
    have hrest := ih hlabel fun s hs => hsteps s (List.mem_cons_of_mem _ hs)
    have hcut := splitOn_append_sep hstep (encode ⟨steps, label⟩)
    rw [show encode ⟨(type, i) :: steps, label⟩ = _ from encode_cons type i ⟨steps, label⟩]
    exact hcut.trans (congrArg _ hrest)

end InternalTxLemmas

open InternalTxLemmas

/-- The address of a call gives back the path to it. -/
theorem decode_encode {p : Path String} (hlabel : Plain p.label)
    (hsteps : ∀ step ∈ p.steps, Plain step.1) : decode (encode p) = some p := by
  have hdecode : (p.steps.map encodeStep).mapM decodeStep = some p.steps := by
    have hall : ∀ steps : List (String × ℕ), (∀ step ∈ steps, Plain step.1) →
        (steps.map encodeStep).mapM decodeStep = some steps := by
      intro steps h
      induction steps with
      | nil => rfl
      | cons step steps ih =>
        rw [List.map_cons, List.mapM_cons, ih fun s hs => h s (List.mem_cons_of_mem _ hs),
          decodeStep_encodeStep (h step List.mem_cons_self).1]
        rfl
    exact hall p.steps hsteps
  rw [decode, splitOn_encode hlabel.2.2 fun step hstep => (hsteps step hstep).2.2]
  simp only [List.dropLast_concat, List.getLast?_concat, hdecode]
  rfl

/-! ## 3. The result -/

section
variable {trace : Call}

/-- The types on the way to a call are those of calls of the trace. -/
theorem plain_typePath (h : ∀ frame ∈ trace.labels, Plain frame.type) {p : Path Frame}
    (hp : p ∈ trace.pathsBelow) :
    Plain (typePath p).label ∧ ∀ step ∈ (typePath p).steps, Plain step.1 := by
  obtain ⟨hlabel, hsteps⟩ := Tree.labels_of_mem_paths (Tree.paths_eq trace ▸ List.mem_cons_of_mem _ hp)
  refine ⟨h _ hlabel, fun step hstep => ?_⟩
  obtain ⟨frameStep, hframe, rfl⟩ := List.mem_map.mp hstep
  exact h _ (hsteps frameStep hframe)

/-- The address of a row decodes to the path to its call. -/
theorem decode_address (h : ∀ frame ∈ trace.labels, Plain frame.type) (tracerId : ℕ)
    {p : Path Frame} (hp : p ∈ trace.pathsBelow) :
    decode (rowOf tracerId p).type_trace_address = some (typePath p) :=
  decode_encode (plain_typePath h hp).1 (plain_typePath h hp).2

/-- The addresses of the rows are different. -/
theorem nodup_addresses (h : ∀ frame ∈ trace.labels, Plain frame.type) (tracerId : ℕ) :
    ((trace.pathsBelow.map (rowOf tracerId)).map
      EvmInternalTransaction.type_trace_address).Nodup := by
  refine List.Nodup.of_map decode ?_
  have hpaths : ((trace.map Frame.type).pathsBelow).Nodup :=
    List.Nodup.of_map _ (Tree.nodup_steps_below _)
  have hdecoded : ((trace.pathsBelow.map (rowOf tracerId)).map
      EvmInternalTransaction.type_trace_address).map decode =
      (trace.map Frame.type).pathsBelow.map some := by
    rw [Tree.pathsBelow_map, List.map_map, List.map_map, List.map_map]
    exact List.map_congr_left fun p hp => decode_address h tracerId hp
  rw [hdecoded]
  exact hpaths.map (Option.some_injective _)

/-- The tree of the types, from the addresses in whatever order. -/
theorem rebuildTypes_eq (hcalls : trace.children ≠ [])
    (h : ∀ frame ∈ trace.labels, Plain frame.type) (tracerId : ℕ) {addresses : List String}
    (haddresses : ∀ a, a ∈ addresses ↔ a ∈ (trace.pathsBelow.map (rowOf tracerId)).map
      EvmInternalTransaction.type_trace_address) :
    rebuildTypes addresses = some (trace.map Frame.type) := by
  have haddress : ∀ a, a ∈ addresses ↔ ∃ p ∈ trace.pathsBelow, encode (typePath p) = a := by
    intro a
    rw [haddresses, List.map_map, List.mem_map]
    rfl
  have hdecode : ∀ a ∈ addresses, (decode a).isSome := by
    intro a ha
    obtain ⟨p, hp, rfl⟩ := (haddress a).mp ha
    rw [decode_encode (plain_typePath h hp).1 (plain_typePath h hp).2]
    rfl
  obtain ⟨paths, hpaths⟩ := exists_mapM_some hdecode
  have hmap := map_eq_of_mapM hpaths
  have hmem : ∀ p, p ∈ paths ↔ p ∈ (trace.map Frame.type).pathsBelow := by
    intro p
    rw [Tree.pathsBelow_map, ← List.mem_map_of_injective (Option.some_injective _), ← hmap,
      List.mem_map, List.mem_map]
    constructor
    · rintro ⟨a, ha, hdec⟩
      obtain ⟨q, hq, rfl⟩ := (haddress a).mp ha
      rw [decode_encode (plain_typePath h hq).1 (plain_typePath h hq).2] at hdec
      exact ⟨q, hq, Option.some.inj hdec⟩
    · rintro ⟨q, hq, rfl⟩
      exact ⟨_, (haddress _).mpr ⟨q, hq, rfl⟩,
        decode_encode (plain_typePath h hq).1 (plain_typePath h hq).2⟩
  have hne : (trace.map Frame.type).children ≠ [] := by
    rw [Ne, ← Tree.pathsBelow_eq_nil_iff, Tree.pathsBelow_map, List.map_eq_nil_iff,
      Tree.pathsBelow_eq_nil_iff]
    exact hcalls
  rw [rebuildTypes, hpaths]
  exact Tree.rebuild_eq hmem hne

end

/-- `jobHandler` calls the function only where it does not throw. -/
theorem internalTxSave_eq (response : List Tracer) :
    internalTxSave response = some (response.flatMap fun tracer =>
      (tracer.result.map fun trace => trace.pathsBelow.map (rowOf tracer.id)).getD []) := by
  rw [internalTxSave, mapM_some fun tracer _ => ?_]
  · exact congrArg some List.flatMap_def.symm
  · obtain ⟨id, result⟩ := tracer
    match result with
    | none => rfl
    | some (.node call []) => rfl
    | some (.node call (c :: calls)) => exact buildEvmInternalTransaction_eq id (by simp)

/-- A trace with at least one inner call is mirrored by its rows. -/
theorem internal_transactions_mirror (trace : Call) (tracerId : ℕ) (hcalls : trace.children ≠ [])
    (hplain : ∀ frame ∈ trace.labels, Plain frame.type) : Mirrors trace tracerId :=
  ⟨_, buildEvmInternalTransaction_eq tracerId hcalls, rfl,
    fun _ hp => decode_address hplain tracerId hp, nodup_addresses hplain tracerId,
    fun _ haddresses => rebuildTypes_eq hcalls hplain tracerId haddresses⟩

/-- A call without value and gas. -/
def plainFrame (type : String) : Frame := ⟨type, none, none, none, "0x", 0, 0, none⟩

theorem internal_transactions_mirror_nested :
    Mirrors (.node (plainFrame "CALL") [.node (plainFrame "CREATE") []]) 1 :=
  internal_transactions_mirror _ 1 (by simp) (by
    intro frame hframe
    simp only [Tree.labels, Tree.paths, Tree.pathsFrom, List.map_cons, List.map_nil,
      List.append_nil, Path.label_cons, List.mem_cons, List.not_mem_nil, or_false] at hframe
    rcases hframe with rfl | rfl <;> exact ⟨by decide +kernel, by decide +kernel, by decide +kernel⟩)

/-- The trace of a plain transfer has no `calls`. -/
theorem lone_root_throws : ¬ Mirrors (.node (plainFrame "CALL") []) 1 := by
  rintro ⟨rows, hrows, -⟩
  cases hrows

end Erascope.Evm
