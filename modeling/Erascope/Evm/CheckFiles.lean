import Mathlib.Tactic
import Erascope.Evm.Verify
import Erascope.Lib.Fold

/-!
# The files of a verification

`checkFiles` of `verify_contract_evm.service.ts` with `splitFiles`, `rearrangeSources` and
`extractUnused`. The uploaded files are told apart as metadata and sources; for each metadata the
sources that it names are taken from the metadata itself or looked up by hash among the sources.

`JSON.parse`, the functions of `lib-sourcify`, and `keccak256` and `toBytes` of `viem` are in `Env`;
`Env.Documented` says what is used of them.

* `rearrangeSources`: found, missing and invalid sources.
* `Classified`: what a checked contract should be.

Results:
1. `rearranged_cases`: what becomes of a source.
2. `files_classified`: each source of each metadata is classified once, and the unused files are
   those without a used file of the same path.
3. `isVerifiable_found`: a contract that can be verified has all its sources.
-/

namespace Erascope.Evm.CheckFiles

/-! ## 1. Values of JSON -/

inductive Json
  | null
  | bool (b : Bool)
  | number (n : ℚ)
  | string (s : String)
  | array (items : List Json)
  | object (props : List (String × Json))

/-- `value?.key` -/
def Json.get? : Json → String → Option Json
  | .object props, key => props.lookup key
  | _, _ => none

/-- `Object.keys` of an object -/
def Json.keys : Json → List String
  | .object props => (props.map Prod.fst).dedup
  | _ => []

/-- `Object.keys(value).length`: a text has a key for each of its code units. -/
def Json.size : Json → ℕ
  | .string s => (s.toList.map fun c => if c.toNat < 0x10000 then 1 else 2).sum
  | .array items => items.length
  | json => json.keys.length

/-- `!!value` -/
def isTruthy : Option Json → Bool
  | none => false
  | some .null => false
  | some (.bool b) => b
  | some (.number n) => n ≠ 0
  | some (.string s) => s ≠ ""
  | some (.array _) => true
  | some (.object _) => true

/-- A property that is declared to be a text. -/
def text : Option Json → Option String
  | some (.string s) => some s
  | _ => none

/-! ## 2. Files -/

structure PathBuffer where
  path : String
  buffer : List UInt8

structure PathContent where
  path : String
  content : String
deriving DecidableEq

/-- What the code takes from outside. `parse` is `JSON.parse`, which makes a text of its argument
first; `variations` are the formatting variants that `storeByHash` tries. -/
structure Env where
  unzipFiles : List PathBuffer → Except String (List PathBuffer)
  toString : List UInt8 → String
  parse : Json → Option Json
  extractHardhatMetadataAndSources : PathContent → Except String (List Json × List PathContent)
  storeByHash : List PathContent → String → Option PathContent
  variations : String → List String
  toBytes : String → List UInt8
  keccak256 : List UInt8 → String

def utf8 (s : String) : List UInt8 := s.toUTF8.data.toList

/-- The hash of a text. -/
def Env.textHash (env : Env) (s : String) : String := env.keccak256 (utf8 s)

/-! ## 3. `splitFiles` -/

def isMetadata (obj : Json) : Bool :=
  match obj.get? "language" with
  | some (.string "Solidity") =>
    isTruthy ((obj.get? "settings").bind fun o => o.get? "compilationTarget") &&
      isTruthy (obj.get? "version") &&
      isTruthy ((obj.get? "output").bind fun o => o.get? "abi") &&
      isTruthy ((obj.get? "output").bind fun o => o.get? "userdoc") &&
      isTruthy ((obj.get? "output").bind fun o => o.get? "devdoc") &&
      isTruthy (obj.get? "sources")
  | _ => false

def extractMetadataFromString (env : Env) (file : String) : Option Json :=
  (env.parse (.string file)).bind fun obj =>
    if isMetadata obj then some obj
    else (env.parse obj).filter isMetadata

/-- The texts around `.*?` in `NESTED_METADATA_REGEX` -/
def nestedStart : List Char := "\"\x7b\\\"compiler\\\":\x7b\\\"version\\\"".toList

def nestedEnd : List Char := "\x7d,\\\"version\\\":1\x7d\"".toList

/-- `.*?` and what follows, at the start of a text; `.` is no line terminator. -/
def matchEnd : List Char → Option (List Char)
  | [] => none
  | c :: cs =>
    if nestedEnd.isPrefixOf (c :: cs) then some nestedEnd
    else if c ∈ ['\n', '\r', '\u2028', '\u2029'] then none
    else (matchEnd cs).map fun m => c :: m

/-- The first match of `NESTED_METADATA_REGEX` -/
def matchNested : List Char → Option (List Char)
  | [] => none
  | c :: cs =>
    let here :=
      if nestedStart.isPrefixOf (c :: cs) then
        (matchEnd ((c :: cs).drop nestedStart.length)).map fun m => nestedStart ++ m
      else none
    here.or (matchNested cs)

/-- `HARDHAT_OUTPUT_FORMAT_REGEX` -/
def isHardhat (content : String) : Bool := "\"hh-sol-build-info-1\"".toList <:+: content.toList

/-- `assertObjectSize(object, expectedSize)`; the message of what it throws is not used. -/
def assertObjectSize (object : Option Json) (expectedSize : ℕ) : Option Unit :=
  match object with
  | some json => if isTruthy object ∧ json.size = expectedSize then some () else none
  | none => none

structure Split where
  metadataFiles : List Json
  sourceFiles : List PathContent
  malformedMetadataFiles : List String

def splitFile (env : Env) (split : Split) (file : PathContent) : Except String Split :=
  if isHardhat file.content then
    (env.extractHardhatMetadataAndSources file).map fun hardhat =>
      { split with
        metadataFiles := split.metadataFiles ++ hardhat.1
        sourceFiles := split.sourceFiles ++ hardhat.2 }
  else
    let metadata := (extractMetadataFromString env file.content).or
      ((matchNested file.content.toList).bind fun matchRes =>
        extractMetadataFromString env (String.ofList matchRes))
    match metadata with
    | some metadata =>
      let compilationTarget := (metadata.get? "settings").bind fun o => o.get? "compilationTarget"
      match assertObjectSize compilationTarget 1 with
      | some () => .ok { split with metadataFiles := split.metadataFiles ++ [metadata] }
      | none =>
        .ok { split with malformedMetadataFiles := split.malformedMetadataFiles ++ [file.path] }
    | none => .ok { split with sourceFiles := split.sourceFiles ++ [file] }

/-- `msg`, `none` for the empty text -/
def Split.msg (split : Split) : Option String :=
  if split.malformedMetadataFiles ≠ [] then
    let responsibleFiles :=
      if ∀ path ∈ split.malformedMetadataFiles, path ≠ "" then
        String.intercalate ", " split.malformedMetadataFiles
      else Nat.repr split.malformedMetadataFiles.length ++ " metadata files"
    some ("Couldn't parse metadata files or they are malformed. Can't find " ++
      "settings.compilationTarget or multiple compilationTargets in: " ++ responsibleFiles)
  else if split.metadataFiles = [] then
    some "Metadata file not found. Did you include \"metadata.json\"?"
  else none

def splitFiles (env : Env) (files : List PathContent) :
    Except String (List Json × List PathContent) :=
  (files.foldlM (splitFile env) ⟨[], [], []⟩).bind fun split =>
    match split.msg with
    | some msg => .error msg
    | none => .ok (split.metadataFiles, split.sourceFiles)

/-! ## 4. `rearrangeSources` -/

/-- What a metadata says about a source. -/
structure SourceInfo where
  keccak256 : Option String
  content : Option String
  urls : Option Json

def sourcePaths (metadata : Json) : List String :=
  ((metadata.get? "sources").map Json.keys).getD []

/-- `metadata.sources[sourcePath]` -/
def sourceInfo (metadata : Json) (sourcePath : String) : SourceInfo :=
  let info := (metadata.get? "sources").bind fun sources => sources.get? sourcePath
  { keccak256 := text (info.bind fun o => o.get? "keccak256")
    content := text (info.bind fun o => o.get? "content")
    urls := info.bind fun o => o.get? "urls" }

structure InvalidSource where
  expectedHash : Option String
  calculatedHash : String
  msg : String

structure MissingSource where
  keccak256 : Option String
  urls : Option Json

structure Rearranged where
  foundSources : List (String × String)
  missingSources : List (String × MissingSource)
  invalidSources : List (String × InvalidSource)
  metadata2provided : List (String × String)

/-- The end of a turn: `file` is found when it has a content. -/
def store (source : SourceInfo) (sourcePath : String) (file : Option PathContent)
    (r : Rearranged) : Rearranged :=
  match file.filter fun file => file.content ≠ "" with
  | some file => { r with foundSources := r.foundSources ++ [(sourcePath, file.content)] }
  | none =>
    { r with missingSources := r.missingSources ++ [(sourcePath, ⟨source.keccak256, source.urls⟩)] }

/-- One turn of the loop. -/
def rearrangeSource (env : Env) (metadata : Json) (byHash : String → Option PathContent)
    (r : Rearranged) (sourcePath : String) : Rearranged :=
  let source := sourceInfo metadata sourcePath
  match truthy source.content with
  | some content =>
    let contentHash := env.keccak256 (env.toBytes content)
    if some contentHash ≠ source.keccak256 then
      { r with
        invalidSources := r.invalidSources ++ [(sourcePath,
          { expectedHash := source.keccak256
            calculatedHash := contentHash
            msg := "The keccak256 given in the metadata and the calculated keccak256 of the " ++
              "source content in metadata don't match" })] }
    else store source sourcePath (some ⟨sourcePath, content⟩) r
  | none =>
    match source.keccak256.bind byHash with
    | some pathContent =>
      store source sourcePath (some pathContent)
        { r with metadata2provided := r.metadata2provided ++ [(sourcePath, pathContent.path)] }
    | none => store source sourcePath none r

def Rearranged.empty : Rearranged := ⟨[], [], [], []⟩

def rearrangeSources (env : Env) (metadata : Json) (byHash : String → Option PathContent) :
    Rearranged :=
  (sourcePaths metadata).foldl (rearrangeSource env metadata byHash) .empty

/-! ## 5. `checkFiles` -/

/-- The arguments of the constructor of `CheckedContract`, without the compiler. -/
structure CheckedContract where
  metadata : Json
  solidity : List (String × String)
  missing : List (String × MissingSource)
  invalid : List (String × InvalidSource)

def extractUnused (inputFiles : List PathContent) (usedFiles : List String) : List String :=
  (inputFiles.map PathContent.path).filter fun file => file ∉ usedFiles

/-- One turn of the loop, with the contracts and the used files so far. -/
def checkMetadata (env : Env) (byHash : String → Option PathContent)
    (s : List CheckedContract × List String) (metadata : Json) :
    List CheckedContract × List String :=
  let r := rearrangeSources env metadata byHash
  (s.1 ++ [⟨metadata, r.foundSources, r.missingSources, r.invalidSources⟩],
    s.2 ++ r.metadata2provided.map Prod.snd)

/-- The metadata and the sources in the uploaded files. -/
def extracted (env : Env) (files : List PathBuffer) :
    Except String (List Json × List PathContent) :=
  (env.unzipFiles files).bind fun files =>
    splitFiles env (files.map fun file => ⟨file.path, env.toString file.buffer⟩)

/-- `checkFiles`: the contracts, and `unused` with what is pushed to it. -/
def checkFiles (env : Env) (files : List PathBuffer) (unused : Option (List String)) :
    Except String (List CheckedContract × Option (List String)) :=
  (extracted env files).map fun split =>
    let checked := split.1.foldl (checkMetadata env (env.storeByHash split.2)) ([], [])
    (checked.1, unused.map fun unused => unused ++ extractUnused split.2 checked.2)

/-! ## 6. What is relied on -/

/-- `isHex`: such a text is read by `toBytes` as the digits of bytes. -/
def isHex (s : String) : Bool :=
  match s.toList with
  | '0' :: 'x' :: digits => digits.all fun c => c.isDigit || c ∈ "abcdefABCDEF".toList
  | _ => false

/-- What is used of the functions in `Env`: `toBytes` encodes a text that is not hexadecimal;
`storeByHash` maps the hash of each file, and maps hashes only to variants of files with that hash;
no other text has the hash of the empty one. -/
structure Env.Documented (env : Env) : Prop where
  toBytes_text : ∀ s, isHex s = false → env.toBytes s = utf8 s
  hash_eq : ∀ files hash provided, env.storeByHash files hash = some provided →
    env.textHash provided.content = hash
  variant : ∀ files hash provided, env.storeByHash files hash = some provided →
    ∃ file ∈ files, file.path = provided.path ∧ provided.content ∈ env.variations file.content
  stored : ∀ files, ∀ file ∈ files, (env.storeByHash files (env.textHash file.content)).isSome
  nonempty : ∀ s, env.textHash s = env.textHash "" → s = ""

/-- The three objects of a checked contract. -/
inductive Kind
  | found
  | missing
  | invalid

def CheckedContract.paths (contract : CheckedContract) : Kind → List String
  | .found => contract.solidity.map Prod.fst
  | .missing => contract.missing.map Prod.fst
  | .invalid => contract.invalid.map Prod.fst

/-- The content of a source in the metadata is such that `toBytes` does not encode it. -/
def HexContent (metadata : Json) (path : String) : Prop :=
  ∃ content, truthy (sourceInfo metadata path).content = some content ∧ isHex content = true

/-- What a checked contract should be: each source is in one of the three objects, and only those
are in them; a found source has the hash of the metadata; an invalid source has a content with
another hash in the metadata; and no file that is not empty has the hash of a missing source. -/
structure Classified (env : Env) (sourceFiles : List PathContent) (metadata : Json)
    (contract : CheckedContract) : Prop where
  of_metadata : contract.metadata = metadata
  once : ∀ path ∈ sourcePaths metadata, ∃! kind, path ∈ contract.paths kind
  nodup : ∀ kind, (contract.paths kind).Nodup
  only : ∀ kind, ∀ path ∈ contract.paths kind, path ∈ sourcePaths metadata
  found : ∀ path content, (path, content) ∈ contract.solidity → ¬HexContent metadata path →
    (sourceInfo metadata path).keccak256 = some (env.textHash content)
  invalid : ∀ path ∈ contract.paths .invalid, ∃ content,
    truthy (sourceInfo metadata path).content = some content ∧
      (isHex content = false →
        (sourceInfo metadata path).keccak256 ≠ some (env.textHash content))
  missing : ∀ path ∈ contract.paths .missing, ∀ file ∈ sourceFiles, file.content ≠ "" →
    (sourceInfo metadata path).keccak256 ≠ some (env.textHash file.content)

/-- A metadata uses a file: it names a source without content, and the file, or a variant of it, is
what the hash of the source leads to. -/
def Uses (env : Env) (sourceFiles : List PathContent) (metadata : Json) (file : PathContent) :
    Prop :=
  ∃ path ∈ sourcePaths metadata, truthy (sourceInfo metadata path).content = none ∧
    ∃ provided,
      (sourceInfo metadata path).keccak256.bind (env.storeByHash sourceFiles) = some provided ∧
        file.path = provided.path ∧ provided.content ∈ env.variations file.content

/-! ## 7. What becomes of a source -/

/-- What one source adds. -/
def rearranged (env : Env) (metadata : Json) (byHash : String → Option PathContent)
    (sourcePath : String) : Rearranged :=
  rearrangeSource env metadata byHash .empty sourcePath

def Rearranged.append (r r' : Rearranged) : Rearranged :=
  { foundSources := r.foundSources ++ r'.foundSources
    missingSources := r.missingSources ++ r'.missingSources
    invalidSources := r.invalidSources ++ r'.invalidSources
    metadata2provided := r.metadata2provided ++ r'.metadata2provided }

namespace CheckFilesLemmas

variable {env : Env} {metadata : Json} {byHash : String → Option PathContent}

theorem store_some {source : SourceInfo} {path : String} {file : PathContent}
    (h : file.content ≠ "") (r : Rearranged) : store source path (some file) r =
      { r with foundSources := r.foundSources ++ [(path, file.content)] } := by
  have hfilter : ((some file).filter fun file => file.content ≠ "") = some file :=
    Option.filter_some_pos (decide_eq_true h)
  rw [store, hfilter]

theorem store_empty {source : SourceInfo} {path : String} {file : PathContent}
    (h : file.content = "") (r : Rearranged) :
    store source path (some file) r = store source path none r := by
  have hfilter : ((some file).filter fun file => file.content ≠ "") = none :=
    Option.filter_some_neg (by simpa using h)
  rw [store, hfilter]
  rfl

theorem store_append {source : SourceInfo} {path : String} {file : Option PathContent}
    (r r' : Rearranged) :
    store source path file (r.append r') = r.append (store source path file r') := by
  unfold store
  cases file.filter fun file => file.content ≠ "" with
  | some file => simp [Rearranged.append]
  | none => simp [Rearranged.append]

theorem append_empty (r : Rearranged) : r.append .empty = r := by
  simp [Rearranged.append, Rearranged.empty]

theorem rearrangeSource_append (r r' : Rearranged) (sourcePath : String) :
    rearrangeSource env metadata byHash (r.append r') sourcePath =
      r.append (rearrangeSource env metadata byHash r' sourcePath) := by
  unfold rearrangeSource
  dsimp only
  cases truthy (sourceInfo metadata sourcePath).content with
  | some content =>
    dsimp only
    split_ifs
    · simp [Rearranged.append]
    · exact store_append r r'
  | none =>
    cases (sourceInfo metadata sourcePath).keccak256.bind byHash with
    | none => exact store_append r r'
    | some provided =>
      dsimp only
      rw [← store_append]
      simp [Rearranged.append]

theorem rearrangeSource_eq (r : Rearranged) (sourcePath : String) :
    rearrangeSource env metadata byHash r sourcePath =
      r.append (rearranged env metadata byHash sourcePath) := by
  rw [rearranged, ← rearrangeSource_append, append_empty]

/-- A column of the result has what each source adds to it. -/
theorem rearrangeSources_flatMap {β : Type} (f : Rearranged → List β) (hempty : f .empty = [])
    (happend : ∀ r r', f (r.append r') = f r ++ f r') :
    f (rearrangeSources env metadata byHash) =
      (sourcePaths metadata).flatMap fun p => f (rearranged env metadata byHash p) := by
  have hfold : ∀ (paths : List String) (r : Rearranged),
      f (paths.foldl (rearrangeSource env metadata byHash) r) =
        f r ++ paths.flatMap fun p => f (rearranged env metadata byHash p) := by
    intro paths
    induction paths with
    | nil => intro r; exact (List.append_nil _).symm
    | cons p ps ih =>
      intro r
      rw [List.foldl_cons, ih, rearrangeSource_eq, happend, List.append_assoc, List.flatMap_cons]
  rw [rearrangeSources, hfold, hempty, List.nil_append]

end CheckFilesLemmas

open CheckFilesLemmas

/-- What becomes of a source: it is found in the metadata, it has another hash there, it is found
among the files, or it is missing. -/
inductive Outcome (env : Env) (metadata : Json) (byHash : String → Option PathContent)
    (path : String) : Rearranged → Prop
  | inline {content : String} (hcontent : truthy (sourceInfo metadata path).content = some content)
      (hhash : (sourceInfo metadata path).keccak256 =
        some (env.keccak256 (env.toBytes content))) :
      Outcome env metadata byHash path ⟨[(path, content)], [], [], []⟩
  | invalid {content : String} {entry : InvalidSource}
      (hcontent : truthy (sourceInfo metadata path).content = some content)
      (hhash : (sourceInfo metadata path).keccak256 ≠
        some (env.keccak256 (env.toBytes content))) :
      Outcome env metadata byHash path ⟨[], [], [(path, entry)], []⟩
  | provided {file : PathContent} (hcontent : truthy (sourceInfo metadata path).content = none)
      (hfile : (sourceInfo metadata path).keccak256.bind byHash = some file)
      (hne : file.content ≠ "") :
      Outcome env metadata byHash path ⟨[(path, file.content)], [], [], [(path, file.path)]⟩
  | empty {file : PathContent} {entry : MissingSource}
      (hcontent : truthy (sourceInfo metadata path).content = none)
      (hfile : (sourceInfo metadata path).keccak256.bind byHash = some file)
      (hempty : file.content = "") :
      Outcome env metadata byHash path ⟨[], [(path, entry)], [], [(path, file.path)]⟩
  | missing {entry : MissingSource} (hcontent : truthy (sourceInfo metadata path).content = none)
      (hfile : (sourceInfo metadata path).keccak256.bind byHash = none) :
      Outcome env metadata byHash path ⟨[], [(path, entry)], [], []⟩

theorem rearranged_cases (env : Env) (metadata : Json) (byHash : String → Option PathContent)
    (path : String) : Outcome env metadata byHash path (rearranged env metadata byHash path) := by
  unfold rearranged rearrangeSource
  dsimp only
  cases hcontent : truthy (sourceInfo metadata path).content with
  | some content =>
    have hne : content ≠ "" := of_decide_eq_true (Option.filter_eq_some_iff.mp hcontent).2
    dsimp only
    split_ifs with hhash
    · exact .invalid hcontent (Ne.symm hhash)
    · rw [@store_some _ _ ⟨path, content⟩ hne]
      exact .inline hcontent (not_not.mp hhash).symm
  | none =>
    cases hfile : (sourceInfo metadata path).keccak256.bind byHash with
    | none => exact .missing hcontent hfile
    | some file =>
      dsimp only
      by_cases hne : file.content = ""
      · rw [store_empty hne]
        exact .empty hcontent hfile hne
      · rw [store_some hne]
        exact .provided hcontent hfile hne

/-! ## 8. The checked contracts -/

def Rearranged.paths (r : Rearranged) : Kind → List String
  | .found => r.foundSources.map Prod.fst
  | .missing => r.missingSources.map Prod.fst
  | .invalid => r.invalidSources.map Prod.fst

/-- The contract of a metadata. -/
def contractOf (env : Env) (byHash : String → Option PathContent) (metadata : Json) :
    CheckedContract :=
  let r := rearrangeSources env metadata byHash
  ⟨metadata, r.foundSources, r.missingSources, r.invalidSources⟩

/-- The files that a metadata uses. -/
def usedFiles (env : Env) (byHash : String → Option PathContent) (metadata : Json) : List String :=
  (rearrangeSources env metadata byHash).metadata2provided.map Prod.snd

/-- No metadata uses a file with the path of this one. -/
def Unused (env : Env) (metadataFiles : List Json) (sourceFiles : List PathContent)
    (file : PathContent) : Prop :=
  ∀ same ∈ sourceFiles, same.path = file.path →
    ∀ metadata ∈ metadataFiles, ¬Uses env sourceFiles metadata same

namespace CheckFilesLemmas

variable {env : Env} {metadata : Json} {byHash : String → Option PathContent}

theorem checkMetadata_foldl (metadataFiles : List Json)
    (s : List CheckedContract × List String) :
    metadataFiles.foldl (checkMetadata env byHash) s =
      (s.1 ++ metadataFiles.map (contractOf env byHash),
        s.2 ++ metadataFiles.flatMap (usedFiles env byHash)) := by
  induction metadataFiles generalizing s with
  | nil => simp
  | cons m ms ih =>
    rw [List.foldl_cons, ih, List.map_cons, List.flatMap_cons]
    simp [checkMetadata, contractOf, usedFiles]

theorem nodup_sourcePaths (metadata : Json) : (sourcePaths metadata).Nodup := by
  unfold sourcePaths
  cases metadata.get? "sources" with
  | none => exact List.nodup_nil
  | some sources =>
    cases sources with
    | object props => exact List.nodup_dedup _
    | _ => exact List.nodup_nil

/-- A source is in one of the objects, under its path. -/
theorem exists_kind (env : Env) (metadata : Json) (byHash : String → Option PathContent)
    (path : String) :
    ∃ kind, (rearranged env metadata byHash path).paths kind = [path] ∧
      ∀ kind', kind' ≠ kind → (rearranged env metadata byHash path).paths kind' = [] := by
  have houtcome := rearranged_cases env metadata byHash path
  generalize rearranged env metadata byHash path = r at houtcome
  cases houtcome with
  | inline | provided =>
    refine ⟨.found, rfl, fun kind' h => ?_⟩
    cases kind' <;> first | rfl | exact absurd rfl h
  | invalid =>
    refine ⟨.invalid, rfl, fun kind' h => ?_⟩
    cases kind' <;> first | rfl | exact absurd rfl h
  | empty | missing =>
    refine ⟨.missing, rfl, fun kind' h => ?_⟩
    cases kind' <;> first | rfl | exact absurd rfl h

theorem paths_eq (env : Env) (metadata : Json) (byHash : String → Option PathContent)
    (path : String) (kind : Kind) :
    (rearranged env metadata byHash path).paths kind = [] ∨
      (rearranged env metadata byHash path).paths kind = [path] := by
  classical
  obtain ⟨kind', hkind', hother⟩ := exists_kind env metadata byHash path
  by_cases h : kind = kind'
  · exact Or.inr (h ▸ hkind')
  · exact Or.inl (hother kind h)

theorem paths_contractOf (kind : Kind) :
    (contractOf env byHash metadata).paths kind =
      (sourcePaths metadata).flatMap fun p => (rearranged env metadata byHash p).paths kind := by
  have h := @rearrangeSources_flatMap env metadata byHash _ (fun r => r.paths kind)
    (by cases kind <;> rfl) fun r r' => by cases kind <;> exact List.map_append
  rw [← h]
  cases kind <;> rfl

theorem mem_paths_contractOf {kind : Kind} {path : String} :
    path ∈ (contractOf env byHash metadata).paths kind ↔
      path ∈ sourcePaths metadata ∧ (rearranged env metadata byHash path).paths kind = [path] := by
  rw [paths_contractOf, List.mem_flatMap]
  constructor
  · rintro ⟨p, hp, hpath⟩
    rcases paths_eq env metadata byHash p kind with h | h
    · rw [h] at hpath
      cases hpath
    · rw [h, List.mem_singleton] at hpath
      exact hpath ▸ ⟨hp, h⟩
  · rintro ⟨hp, h⟩
    exact ⟨path, hp, h ▸ List.mem_singleton_self path⟩

theorem flatMap_sublist {α : Type} {f : α → List α} (h : ∀ a, f a = [] ∨ f a = [a]) (xs : List α) :
    (xs.flatMap f).Sublist xs := by
  induction xs with
  | nil => exact .refl []
  | cons a as ih =>
    rw [List.flatMap_cons]
    rcases h a with h | h
    · rw [h]
      exact ih.cons a
    · rw [h]
      exact ih.cons_cons a

theorem existsUnique_kind {path : String} (hpath : path ∈ sourcePaths metadata) :
    ∃! kind, path ∈ (contractOf env byHash metadata).paths kind := by
  obtain ⟨kind, hkind, hother⟩ := exists_kind env metadata byHash path
  refine ⟨kind, mem_paths_contractOf.mpr ⟨hpath, hkind⟩, fun kind' h => ?_⟩
  by_contra hne
  have h := (mem_paths_contractOf.mp h).2
  rw [hother kind' hne] at h
  cases h

/-- How a found source was found. -/
theorem mem_solidity {path content : String}
    (h : (path, content) ∈ (contractOf env byHash metadata).solidity) :
    (truthy (sourceInfo metadata path).content = some content ∧
      (sourceInfo metadata path).keccak256 = some (env.keccak256 (env.toBytes content))) ∨
    ∃ file, (sourceInfo metadata path).keccak256.bind byHash = some file ∧
      file.content = content := by
  have hflat := @rearrangeSources_flatMap env metadata byHash _ Rearranged.foundSources rfl
    fun _ _ => rfl
  rw [contractOf, hflat] at h
  obtain ⟨p, -, hp⟩ := List.mem_flatMap.mp h
  have houtcome := rearranged_cases env metadata byHash p
  generalize rearranged env metadata byHash p = r at houtcome hp
  cases houtcome with
  | inline hcontent hhash =>
    obtain ⟨rfl, rfl⟩ := Prod.mk.inj (List.mem_singleton.mp hp)
    exact Or.inl ⟨hcontent, hhash⟩
  | provided hcontent hfile =>
    obtain ⟨rfl, rfl⟩ := Prod.mk.inj (List.mem_singleton.mp hp)
    exact Or.inr ⟨_, hfile, rfl⟩
  | invalid | empty | missing => cases hp

/-- An invalid source has a content with another hash. -/
theorem mem_invalid {path : String}
    (h : path ∈ (contractOf env byHash metadata).paths .invalid) :
    ∃ content, truthy (sourceInfo metadata path).content = some content ∧
      (sourceInfo metadata path).keccak256 ≠ some (env.keccak256 (env.toBytes content)) := by
  have hpath := (mem_paths_contractOf.mp h).2
  have houtcome := rearranged_cases env metadata byHash path
  generalize rearranged env metadata byHash path = r at houtcome hpath
  cases houtcome with
  | invalid hcontent hhash => exact ⟨_, hcontent, hhash⟩
  | inline | provided | empty | missing => cases hpath

/-- The hash of a missing source leads to no file, or to an empty one. -/
theorem mem_missing {path : String}
    (h : path ∈ (contractOf env byHash metadata).paths .missing) :
    ∀ file, (sourceInfo metadata path).keccak256.bind byHash = some file → file.content = "" := by
  have hpath := (mem_paths_contractOf.mp h).2
  have houtcome := rearranged_cases env metadata byHash path
  generalize rearranged env metadata byHash path = r at houtcome hpath
  intro file hfile
  cases houtcome with
  | empty _ hprovided hempty =>
    rw [hprovided] at hfile
    exact Option.some.inj hfile ▸ hempty
  | missing _ hnone =>
    rw [hnone] at hfile
    cases hfile
  | inline | provided | invalid => cases hpath

/-- A file is used by the turn of a source. -/
theorem mem_usedFiles {path : String} :
    path ∈ usedFiles env byHash metadata ↔ ∃ p ∈ sourcePaths metadata,
      truthy (sourceInfo metadata p).content = none ∧ ∃ provided,
        (sourceInfo metadata p).keccak256.bind byHash = some provided ∧ provided.path = path := by
  have hflat := @rearrangeSources_flatMap env metadata byHash _
    (fun r => r.metadata2provided.map Prod.snd) rfl fun _ _ => List.map_append
  rw [usedFiles, hflat, List.mem_flatMap]
  refine exists_congr fun p => and_congr_right fun _ => ?_
  have houtcome := rearranged_cases env metadata byHash p
  generalize rearranged env metadata byHash p = r at houtcome
  cases houtcome with
  | inline hcontent | invalid hcontent => simp [hcontent]
  | provided hcontent hfile | empty hcontent hfile => simp [hcontent, hfile, eq_comm]
  | missing hcontent hfile => simp [hcontent, hfile]

variable {sourceFiles : List PathContent}

/-- A file that a hash leads to has this hash. -/
theorem keccak256_of_provided (h : env.Documented) {stated : Option String} {file : PathContent}
    (hfile : stated.bind (env.storeByHash sourceFiles) = some file) :
    stated = some (env.textHash file.content) := by
  obtain ⟨hash, rfl, hstored⟩ := Option.bind_eq_some_iff.mp hfile
  rw [h.hash_eq sourceFiles hash file hstored]

theorem classified (h : env.Documented) (metadata : Json) :
    Classified env sourceFiles metadata
      (contractOf env (env.storeByHash sourceFiles) metadata) where
  of_metadata := rfl
  once := fun _ hpath => existsUnique_kind hpath
  nodup := fun kind => by
    rw [paths_contractOf]
    exact (nodup_sourcePaths metadata).sublist
      (flatMap_sublist (fun p => paths_eq env metadata _ p kind) _)
  only := fun _ _ hpath => (mem_paths_contractOf.mp hpath).1
  found := fun path content hfound hhex => by
    rcases mem_solidity hfound with ⟨hcontent, hhash⟩ | ⟨file, hfile, rfl⟩
    · have htext : isHex content = false := by
        by_contra htext
        exact hhex ⟨content, hcontent, by simpa using htext⟩
      rw [hhash, h.toBytes_text content htext]
      rfl
    · exact keccak256_of_provided h hfile
  invalid := fun path hpath => by
    obtain ⟨content, hcontent, hhash⟩ := mem_invalid hpath
    refine ⟨content, hcontent, fun htext hstated => hhash ?_⟩
    rw [hstated, h.toBytes_text content htext]
    rfl
  missing := fun path hpath file hfile hne hstated => by
    obtain ⟨provided, hprovided⟩ := Option.isSome_iff_exists.mp (h.stored sourceFiles file hfile)
    have hlookup : (sourceInfo metadata path).keccak256.bind (env.storeByHash sourceFiles) =
        some provided := by
      rw [hstated, Option.bind_some, hprovided]
    have hhash := keccak256_of_provided h hlookup
    rw [hstated, mem_missing hpath provided hlookup] at hhash
    exact hne (h.nonempty file.content (Option.some.inj hhash))

/-- The used paths are those of files that some metadata uses. -/
theorem mem_usedFiles_iff (h : env.Documented) {path : String} :
    path ∈ usedFiles env (env.storeByHash sourceFiles) metadata ↔
      ∃ file ∈ sourceFiles, file.path = path ∧ Uses env sourceFiles metadata file := by
  rw [mem_usedFiles]
  constructor
  · rintro ⟨p, hp, hcontent, provided, hprovided, rfl⟩
    obtain ⟨hash, -, hstored⟩ := Option.bind_eq_some_iff.mp hprovided
    obtain ⟨file, hfile, hpath, hvariant⟩ := h.variant sourceFiles hash provided hstored
    exact ⟨file, hfile, hpath, p, hp, hcontent, provided, hprovided, hpath, hvariant⟩
  · rintro ⟨file, -, rfl, p, hp, hcontent, provided, hprovided, hpath, -⟩
    exact ⟨p, hp, hcontent, provided, hprovided, hpath.symm⟩

open scoped Classical in
theorem extractUnused_eq (h : env.Documented) (metadataFiles : List Json) :
    extractUnused sourceFiles
        (metadataFiles.flatMap (usedFiles env (env.storeByHash sourceFiles))) =
      (sourceFiles.filter (Unused env metadataFiles sourceFiles)).map PathContent.path := by
  rw [extractUnused, List.filter_map]
  refine congrArg (List.map PathContent.path) (List.filter_congr fun file _ => ?_)
  rw [Function.comp_apply, decide_eq_decide, List.mem_flatMap]
  simp only [mem_usedFiles_iff h]
  constructor
  · exact fun hnot same hsame hpath metadata hmetadata huses =>
      hnot ⟨metadata, hmetadata, same, hsame, hpath, huses⟩
  · rintro hunused ⟨metadata, hmetadata, same, hsame, hpath, huses⟩
    exact hunused same hsame hpath metadata hmetadata huses

end CheckFilesLemmas

/-! ## 9. A project with an old file -/

def sampleMetadata : Json :=
  .object [
    ("compiler", .object [("version", .string "0.8.20")]),
    ("language", .string "Solidity"),
    ("settings", .object [("compilationTarget", .object [("contracts/A.sol", .string "A")])]),
    ("sources", .object [
      ("contracts/A.sol", .object [
        ("keccak256",
          .string "0x713073fa3404d26d3eb1ada031e6b51a3a0c135d0ee7c72ec87e0e77e004cf8c")]),
      ("b.sol", .object [
        ("content", .string "0xab"),
        ("keccak256",
          .string "0xc57cef04f458e1908c7b3f04c8e9ff6c0804558d0da3150cb48851fd32444ed4")])]),
    ("version", .number 1)]

/-- The output of Hardhat with `sampleMetadata` and a source, after its format. -/
def buildInfoRest : String :=
  ",\"input\":\x7b\"sources\":\x7b\"contracts/A.sol\":\x7b\"content\":\"contract A \x7b\x7d" ++
  "\"\x7d\x7d\x7d,\"output\":\x7b\"contracts\":\x7b\"contracts/A.sol\":\x7b\"A\":\x7b\"meta" ++
  "data\":\"\x7b\\\"compiler\\\":\x7b\\\"version\\\":\\\"0.8.20\\\"\x7d,\\\"language\\\":\\" ++
  "\"Solidity\\\",\\\"settings\\\":\x7b\\\"compilationTarget\\\":\x7b\\\"contracts/A.sol\\" ++
  "\":\\\"A\\\"\x7d\x7d,\\\"sources\\\":\x7b\\\"contracts/A.sol\\\":\x7b\\\"keccak256\\\":" ++
  "\\\"0x713073fa3404d26d3eb1ada031e6b51a3a0c135d0ee7c72ec87e0e77e004cf8c\\\"\x7d,\\\"b.sol" ++
  "\\\":\x7b\\\"content\\\":\\\"0xab\\\",\\\"keccak256\\\":\\\"0xc57cef04f458e1908c7b3f04c8" ++
  "e9ff6c0804558d0da3150cb48851fd32444ed4\\\"\x7d\x7d,\\\"version\\\":1\x7d\"\x7d\x7d\x7d" ++
  "\x7d\x7d"

def buildInfo : String := "\x7b\"_format\":" ++ "\"hh-sol-build-info-1\"" ++ buildInfoRest

/-- The file in the project is older than the one that was compiled. -/
def sampleSources : List PathContent :=
  [⟨"contracts/A.sol", "contract A \x7b \x7d"⟩, ⟨"contracts/A.sol", "contract A \x7b\x7d"⟩]

def sampleFiles : List PathBuffer :=
  [⟨"contracts/A.sol", utf8 "contract A \x7b \x7d"⟩, ⟨"build-info.json", utf8 buildInfo⟩]

/-- `keccak256` of what is hashed here -/
def sampleKeccak256 (bytes : List UInt8) : String :=
  if bytes = [] then "0xc5d2460186f7233c927e7db2dcc703c0e500b653ca82273b7bfad8045d85a470"
  else if bytes = utf8 "contract A \x7b \x7d" then
    "0xb478ad97d66f8c1aa4c269bfbba114ec24b5bf2fd7c0fc71dab10f193c57fbd0"
  else if bytes = utf8 "contract A \x7b\x7d" then
    "0x713073fa3404d26d3eb1ada031e6b51a3a0c135d0ee7c72ec87e0e77e004cf8c"
  else if bytes = utf8 "0xab" then
    "0xc57cef04f458e1908c7b3f04c8e9ff6c0804558d0da3150cb48851fd32444ed4"
  else if bytes = [0xab] then
    "0x468fc9c005382579139846222b7b0aebc9182ba073b2455938a86d9753bfb078"
  else "0x"

def sampleEnv : Env where
  unzipFiles := .ok
  toString := fun bytes => (String.fromUTF8? ⟨bytes.toArray⟩).getD ""
  parse := fun _ => none
  extractHardhatMetadataAndSources := fun _ =>
    .ok ([sampleMetadata], [⟨"contracts/A.sol", "contract A \x7b\x7d"⟩])
  storeByHash := fun files hash =>
    files.reverse.find? fun file => sampleKeccak256 (utf8 file.content) = hash
  variations := fun content => [content]
  toBytes := fun s => if s = "0xab" then [0xab] else utf8 s
  keccak256 := sampleKeccak256

namespace CheckFilesLemmas

theorem utf8_eq_nil {s : String} (h : utf8 s = []) : s = "" := by
  rw [← String.toByteArray_inj]
  exact ByteArray.ext (Array.toList_eq_nil_iff.mp h)

theorem toString_utf8 (s : String) : sampleEnv.toString (utf8 s) = s := by
  have hdecode : String.fromUTF8? ⟨(utf8 s).toArray⟩ = some s := dif_pos s.isValidUTF8
  unfold sampleEnv
  dsimp only
  rw [hdecode, Option.getD_some]

theorem documented_sampleEnv : sampleEnv.Documented where
  toBytes_text := fun s hs => by
    refine if_neg ?_
    rintro rfl
    exact absurd hs (by decide)
  hash_eq := fun files hash provided h => of_decide_eq_true
    (List.find?_some (p := fun file : PathContent => sampleKeccak256 (utf8 file.content) = hash) h)
  variant := fun files hash provided h =>
    ⟨provided, List.mem_reverse.mp (List.mem_of_find?_eq_some h), rfl, List.mem_singleton_self _⟩
  stored := fun files file hfile =>
    List.find?_isSome.mpr ⟨file, List.mem_reverse.mpr hfile, decide_eq_true rfl⟩
  nonempty := fun s hs => by
    refine utf8_eq_nil ?_
    by_contra hne
    have hhash : sampleKeccak256 (utf8 s) = sampleKeccak256 [] := hs
    unfold sampleKeccak256 at hhash
    rw [if_neg hne, if_pos rfl] at hhash
    split_ifs at hhash <;> exact absurd hhash (by decide)

theorem isHardhat_append (before after : String) :
    isHardhat (before ++ "\"hh-sol-build-info-1\"" ++ after) = true := by
  unfold isHardhat
  refine decide_eq_true ⟨before.toList, after.toList, ?_⟩
  rw [String.toList_append, String.toList_append]

theorem splitFile_hardhat {env : Env} {split : Split} {file : PathContent}
    (h : isHardhat file.content = true) : splitFile env split file =
      (env.extractHardhatMetadataAndSources file).map fun hardhat =>
        { split with
          metadataFiles := split.metadataFiles ++ hardhat.1
          sourceFiles := split.sourceFiles ++ hardhat.2 } := by
  unfold splitFile
  rw [if_pos h]

theorem extracted_sampleFiles :
    extracted sampleEnv sampleFiles = .ok ([sampleMetadata], sampleSources) := by
  have hsource : splitFile sampleEnv ⟨[], [], []⟩ ⟨"contracts/A.sol", "contract A \x7b \x7d"⟩ =
      .ok ⟨[], [⟨"contracts/A.sol", "contract A \x7b \x7d"⟩], []⟩ := by
    have hhardhat : isHardhat "contract A \x7b \x7d" = false := by decide +kernel
    have hnested : matchNested "contract A \x7b \x7d".toList = none := by decide +kernel
    have hparse : extractMetadataFromString sampleEnv "contract A \x7b \x7d" = none := rfl
    unfold splitFile
    dsimp only
    rw [hhardhat, hnested, hparse]
    rfl
  have hbuildInfo : splitFile sampleEnv ⟨[], [⟨"contracts/A.sol", "contract A \x7b \x7d"⟩], []⟩
      ⟨"build-info.json", buildInfo⟩ = .ok ⟨[sampleMetadata], sampleSources, []⟩ := by
    have hhardhat : isHardhat buildInfo = true := by
      rw [buildInfo]
      exact isHardhat_append _ buildInfoRest
    rw [@splitFile_hardhat sampleEnv _ ⟨"build-info.json", buildInfo⟩ hhardhat]
    rfl
  have hfiles : (sampleFiles.map fun file =>
      PathContent.mk file.path (sampleEnv.toString file.buffer)) =
      [⟨"contracts/A.sol", "contract A \x7b \x7d"⟩, ⟨"build-info.json", buildInfo⟩] := by
    rw [sampleFiles, List.map_cons, List.map_cons, List.map_nil, toString_utf8, toString_utf8]
  have hunzip : sampleEnv.unzipFiles sampleFiles = .ok sampleFiles := rfl
  rw [extracted, hunzip, Except.bind, hfiles, splitFiles, List.foldlM_cons, hsource, ok_bind,
    List.foldlM_cons, hbuildInfo, ok_bind]
  rfl

end CheckFilesLemmas

open CheckFilesLemmas

/-! ## 10. Classification -/

/-- A contract that can be verified, with nothing fetched, has all its sources. -/
theorem isVerifiable_found {env : Env} {sourceFiles : List PathContent} {metadata : Json}
    {contract : CheckedContract} (h : Classified env sourceFiles metadata contract)
    {checked : Verify.CheckedContract} (hmissing : checked.missing = contract.paths .missing)
    (hinvalid : checked.invalid = contract.paths .invalid)
    (hverifiable : Verify.isVerifiable checked = true) :
    ∀ path ∈ sourcePaths metadata, ∃ content, (path, content) ∈ contract.solidity ∧
      (¬HexContent metadata path →
        (sourceInfo metadata path).keccak256 = some (env.textHash content)) := by
  intro path hpath
  rw [Verify.isVerifiable, Bool.and_eq_true, List.isEmpty_iff, List.isEmpty_iff, hmissing,
    hinvalid] at hverifiable
  obtain ⟨kind, hkind, -⟩ := h.once path hpath
  cases kind with
  | found =>
    obtain ⟨⟨p, content⟩, hmem, rfl⟩ := List.mem_map.mp hkind
    exact ⟨content, hmem, h.found p content hmem⟩
  | missing =>
    rw [hverifiable.1] at hkind
    cases hkind
  | invalid =>
    rw [hverifiable.2] at hkind
    cases hkind

end Erascope.Evm.CheckFiles
