import Kimmy.PathWrite
import Kimmy.Query.Filter

/-!
Updates (`update.rs`, `update_pipeline.rs`): a replacement, a list of operators on paths, or a pipeline of
stages. An update is parsed once and applied to each document it selects. The filter language, the arithmetic
of numbers, the sort specification and the stages of an aggregation are parameters.
-/
namespace Kimmy.Query
open ByteOrder CanonicalCmp

inductive UpdateError where
  | mixesOperators
  | filtersOfReplacement
  | filtersOfPipeline
  | requiresDocument (op : String)
  | idImmutable
  | idRenamedOnto
  | requiresNumber (op : String)
  | bitSpecification (found : String)
  | bitEmpty
  | bitUnknown (operation : String)
  | bitOperand (operation found : String)
  | bitField (path found : String)
  | mixedPull (operator plain : String)
  | pullAllRequiresArray
  | popDirection
  | renameTarget
  | renamePositional
  | unsupportedOperator (op : String)
  | eachRequiresArray (op : String)
  | eachMissing (op : String)
  | unrecognizedClause (op clause : String)
  | requiresInteger (what : String)
  | sortSpecification
  | startsPositional (path : String)
  | manyDollars (path : String)
  | dollarAfterArray (path : String)
  | malformedPositional (segment path : String)
  | identifierMalformed (identifier : String)
  | filterMissing (path identifier : String)
  | filterUnused (identifier : String)
  | conflict (earlier later : Nat) (theirs mine : List String)
  | dollarOnInsert
  | dollarUnmatched (path : String)
  | dollarElsewhere (path place : String) (matched : String)
  | dollarNotArray (path place : String)
  | dollarOutside (path place : String) (index : Nat)
  | positionalAbsent (path place segment : String)
  | positionalNotArray (path place segment : String)
  | notNumeric (segment : String)
  | notArray (op path : String)
  | stageCount
  | other (why : String)
  deriving DecidableEq

inductive BitOp where
  | and
  | or
  | xor
  deriving DecidableEq

inductive Arith where
  | add
  | mul

structure ArrayPosition where
  path : String
  index : Nat

section
variable (Condition SortKeys Stage : Type)

/- One entry of `arrayFilters`: what an element must satisfy to be addressed through the identifier. -/
structure ArrayFilter where
  identifier : String
  filter : Condition

inductive ArraySort where
  | whole (descending : Bool)
  | byFields (keys : SortKeys)

structure PushEach where
  values : List Bson
  position : Option Int64
  sort : Option (ArraySort SortKeys)
  slice : Option Int64

inductive OpKind where
  | set (value : Bson)
  | setOnInsert (value : Bson)
  | unset
  | inc (delta : Bson)
  | mul (factor : Bson)
  | bit (steps : List (BitOp × Bson))
  | min (candidate : Bson)
  | max (candidate : Bson)
  | push (value : Bson)
  | pushEach (each : PushEach SortKeys)
  | addToSet (values : List Bson)
  | pull (value : Bson)
  | pullWhere (condition : Condition)
  | pullAll (values : List Bson)
  | pop (last : Bool)
  | rename (target : String)
  | currentDate

structure Operation where
  path : String
  kind : OpKind Condition SortKeys
  arrayFilters : List (ArrayFilter Condition)

inductive Update where
  | replace (replacement : Document)
  | operators (operations : List (Operation Condition SortKeys))
  | pipeline (stages : List Stage)

/- What an update borrows. -/
structure UpdateLanguage where
  parseArrayFilters : List Document → Except UpdateError (List (ArrayFilter Condition))
  parseCondition : Document → Except UpdateError Condition
  parseSort : Document → Except UpdateError SortKeys
  parseStages : List Bson → Except UpdateError (List Stage)
  matchesElement : Condition → String → Bson → Option Bson → Except UpdateError Bool
  matchesPullElement : Condition → Bson → Except UpdateError Bool
  compare : SortKeys → Document → Document → Ordering
  arithmetic : Bson → Bson → Arith → String → Except UpdateError Bson
  rawKey : Bson → Bytes
  applyStage : Stage → Document → Except UpdateError (List Document)

end

/-! Paths as they are written. -/

/- `starts_with` and `strip_prefix`, character by character. -/
def stripText (start text : List Char) : Option (List Char) :=
  match start, text with
  | [], rest => some rest
  | c :: more, d :: rest => if c = d then stripText more rest else none
  | _ :: _, [] => none

def isOperator (key : String) : Bool := (stripText ['$'] key.toList).isSome

/- `_id`, or a place under it. -/
def touchesId (path : String) : Bool :=
  path == idField || (stripText idField.toList path.toList).any fun rest => (stripText ['.'] rest).isSome

/- `$[identifier]`, with no identifier for every element. -/
def opensPositional (segment : String) : Option (List Char) := stripText ['$','['] segment.toList

def positionalIdentifier (segment : String) : Option String :=
  (opensPositional segment).bind fun inner =>
    if inner.getLast? = some ']' then some (String.ofList inner.dropLast) else none

def hasPositional (path : String) : Bool :=
  (segments path).any fun segment => segment == "$" || (opensPositional segment).isSome

def hasMatchedPosition (path : String) : Bool := (segments path).contains "$"

def isAsciiLower (c : Char) : Bool := 'a' ≤ c && c ≤ 'z'

def isAsciiAlphanumeric (c : Char) : Bool :=
  isAsciiLower c || ('A' ≤ c && c ≤ 'Z') || ('0' ≤ c && c ≤ '9')

def wellFormedIdentifier (identifier : String) : Bool :=
  match identifier.toList with
  | first :: rest => isAsciiLower first && rest.all isAsciiAlphanumeric
  | [] => false

/- The identifiers of a path in order of first use. `$` stands once, and before any of them. -/
def identifiersFrom (path : String) (position dollars : Nat) (afterArray : Bool) (known : List String) :
    List String → Except UpdateError (List String)
  | [] => .ok known
  | segment :: rest =>
      if segment = "$" then
        if position = 0 then .error (.startsPositional path)
        else if 0 < dollars then .error (.manyDollars path)
        else if afterArray then .error (.dollarAfterArray path)
        else identifiersFrom path (position + 1) (dollars + 1) afterArray known rest
      else match opensPositional segment with
        | none => identifiersFrom path (position + 1) dollars afterArray known rest
        | some _ => match positionalIdentifier segment with
            | none => .error (.malformedPositional segment path)
            | some identifier =>
                if position = 0 then .error (.startsPositional path)
                else if identifier = "" then identifiersFrom path (position + 1) dollars true known rest
                else if wellFormedIdentifier identifier = false then .error (.identifierMalformed identifier)
                else identifiersFrom path (position + 1) dollars true
                  (if known.contains identifier then known else known ++ [identifier]) rest

def positionalIdentifiers (path : String) : Except UpdateError (List String) :=
  identifiersFrom path 0 0 false [] (segments path)

/-! Parsing. -/

def numeric (op : String) : Bson → Except UpdateError Bson
  | .int32 n => .ok (.int32 n)
  | .int64 n => .ok (.int64 n)
  | .double bits => .ok (.double bits)
  | .decimal128 word => .ok (.decimal128 word)
  | _ => .error (.requiresNumber op)

/- A whole number of any numeric type; a double below `2^53`. -/
def integer (what : String) : Bson → Except UpdateError Int64
  | .int32 n => .ok n.toInt64
  | .int64 n => .ok n
  | .double bits => match Exact.double bits with
      | .finite x =>
          if truncated x = x ∧ |x| < 9007199254740992 then .ok (Int64.ofInt (truncated x)) else .error (.requiresInteger what)
      | _ => .error (.requiresInteger what)
  | .decimal128 word => match (integerPart word).filter fun part => part.whole && part.inRange with
      | some part => .ok part.value
      | none => .error (.requiresInteger what)
  | _ => .error (.requiresInteger what)

def parseBitStep (key : String) (operand : Bson) : Except UpdateError (BitOp × Bson) := do
  let op ← match key with
    | "and" => .ok BitOp.and
    | "or" => .ok .or
    | "xor" => .ok .xor
    | other => .error (.bitUnknown other)
  match operand with
  | .int32 n => .ok (op,.int32 n)
  | .int64 n => .ok (op,.int64 n)
  | other => .error (.bitOperand key (typeNameOf other))

def parseBit : Bson → Except UpdateError (List (BitOp × Bson))
  | .document [] => .error .bitEmpty
  | .document spec => spec.mapM fun (key,operand) => parseBitStep key operand
  | other => .error (.bitSpecification (typeNameOf other))

/- A document with an operator in it is read as modifiers, not as a value. -/
def modifierDocument : Bson → Option Document
  | .document doc => if doc.any (isOperator ·.1) then some doc else none
  | _ => none

def eachValues (op : String) (modifiers : Document) : Except UpdateError (List Bson) :=
  match modifiers.get "$each" with
  | some (.array items) => .ok items
  | some _ => .error (.eachRequiresArray op)
  | none => .error (.eachMissing op)

def parseAddToSetEach (modifiers : Document) : Except UpdateError (List Bson) :=
  match modifiers.find? fun field => field.1 ≠ "$each" with
  | some (other,_) => .error (.unrecognizedClause "addToSet" other)
  | none => eachValues "addToSet" modifiers

section
variable {Condition SortKeys Stage : Type} (lang : UpdateLanguage Condition SortKeys Stage)

/- `1`, `-1` or a document of fields. -/
def parseArraySort (value : Bson) : Except UpdateError (ArraySort SortKeys) :=
  let direction : Option Int := match value with
    | .int32 n => some n.toInt
    | .int64 n => some n.toInt
    | .double bits => match Exact.double bits with
        | .finite x => if x = 1 then some 1 else if x = -1 then some (-1) else none
        | _ => none
    | .decimal128 word => ((integerPart word).filter (·.whole)).map (·.value.toInt)
    | _ => none
  if direction = some 1 then .ok (.whole false)
  else if direction = some (-1) then .ok (.whole true)
  else match value with
    | .document (field :: rest) => (lang.parseSort (field :: rest)).map .byFields
    | _ => .error .sortSpecification

def parsePushClause (each : PushEach SortKeys) (field : String × Bson) : Except UpdateError (PushEach SortKeys) :=
  match field.1 with
  | "$each" => .ok each
  | "$position" => (integer "$push: $position" field.2).map fun n => { each with position := some n }
  | "$slice" => (integer "$push: $slice" field.2).map fun n => { each with slice := some n }
  | "$sort" => (parseArraySort lang field.2).map fun sort => { each with sort := some sort }
  | other => .error (.unrecognizedClause "push" other)

def parsePushEach (modifiers : Document) : Except UpdateError (PushEach SortKeys) := do
  let values ← eachValues "push" modifiers
  modifiers.foldlM (parsePushClause lang) ⟨values,none,none,none⟩

/- A condition for a document of operators, a value otherwise; never both. -/
def parsePull (arg : Bson) : Except UpdateError (OpKind Condition SortKeys) :=
  match arg with
  | .document doc =>
      if doc ≠ [] ∧ doc.all (isOperator ·.1) then (lang.parseCondition doc).map .pullWhere
      else match doc.find? (isOperator ·.1), doc.find? (! isOperator ·.1) with
        | some (operator,_), some (plain,_) => .error (.mixedPull operator plain)
        | _, _ => .ok (.pull arg)
  | _ => .ok (.pull arg)

def parseOp (op : String) (arg : Bson) : Except UpdateError (OpKind Condition SortKeys) :=
  match op with
  | "set" => .ok (.set arg)
  | "setOnInsert" => .ok (.setOnInsert arg)
  | "unset" => .ok .unset
  | "inc" => (numeric op arg).map .inc
  | "mul" => (numeric op arg).map .mul
  | "bit" => (parseBit arg).map .bit
  | "min" => .ok (.min arg)
  | "max" => .ok (.max arg)
  | "push" => match modifierDocument arg with
      | some modifiers => (parsePushEach lang modifiers).map .pushEach
      | none => .ok (.push arg)
  | "addToSet" => match modifierDocument arg with
      | some modifiers => (parseAddToSetEach modifiers).map .addToSet
      | none => .ok (.addToSet [arg])
  | "pull" => parsePull lang arg
  | "pullAll" => match arg with
      | .array values => .ok (.pullAll values)
      | _ => .error .pullAllRequiresArray
  | "pop" => match arg with
      | .int32 n => if n = 1 then .ok (.pop true) else if n = -1 then .ok (.pop false) else .error .popDirection
      | .int64 n => if n = 1 then .ok (.pop true) else if n = -1 then .ok (.pop false) else .error .popDirection
      | _ => .error .popDirection
  | "rename" => match arg with
      | .string target => .ok (.rename target)
      | _ => .error .renameTarget
  | "currentDate" => .ok .currentDate
  | other => .error (.unsupportedOperator other)

/-! The paths an update writes. -/

/- A segment that reads as a position is compared by its value, except the first, which names a field. -/
def canonical (path : String) : List String :=
  match segments path with
  | [] => []
  | head :: rest => head :: rest.map fun segment => match parseUsize segment with
      | some index => toString index
      | none => segment

/- The paths a path lies inside, the shortest first. -/
def outerPaths (path : List String) : List (List String) :=
  (List.range (path.length - 1)).map fun k => path.take (k + 1)

/- Each path claimed with the operation that claimed it first, and each path one of them lies inside. -/
structure Claims where
  exact : List (List String × Nat)
  inner : List (List String × Nat × List String)

namespace Claims

def new : Claims := ⟨[],[]⟩

def exactAt (claims : Claims) (path : List String) : Option Nat := (claims.exact.find? (·.1 = path)).map (·.2)

def innerAt (claims : Claims) (path : List String) : Option (Nat × List String) :=
  (claims.inner.find? (·.1 = path)).map (·.2)

/- `entry(..).or_insert(..)`: the first claim of a path stays. -/
def noteInner (claims : Claims) (i : Nat) (path outer : List String) : Claims :=
  if (claims.innerAt outer).isSome then claims else { claims with inner := claims.inner ++ [(outer,i,path)] }

def noteExact (claims : Claims) (i : Nat) (path : List String) : Claims :=
  if (claims.exactAt path).isSome then claims else { claims with exact := claims.exact ++ [(path,i)] }

/- Refused when another operation wrote the path, a path inside it or a path it lies inside. -/
def claim (claims : Claims) (i : Nat) (written : String) : Except UpdateError Claims :=
  let path := canonical written
  match (claims.exactAt path).filter (· ≠ i) with
  | some j => .error (.conflict j i path path)
  | none => match (claims.innerAt path).filter fun held => held.1 ≠ i with
      | some (j,longer) => .error (.conflict j i longer path)
      | none => match (outerPaths path).findSome? fun outer =>
            ((claims.exactAt outer).filter (· ≠ i)).map fun j => (j,outer) with
          | some (j,outer) => .error (.conflict j i outer path)
          | none => .ok (((outerPaths path).foldl (fun claims outer => claims.noteInner i path outer) claims).noteExact i path)

def claimAll (claims : Claims) (i : Nat) (paths : List String) : Except UpdateError Claims :=
  paths.foldlM (fun claims path => claims.claim i path) claims

end Claims

def writtenPaths (op : Operation Condition SortKeys) : List String :=
  match op.kind with
  | .rename target => [op.path,target]
  | _ => [op.path]

/- The operations with their places, each with the paths it writes. -/
def claimEach (claims : Claims) (i : Nat) : List (List String) → Except UpdateError Claims
  | [] => .ok claims
  | paths :: rest => do
      let next ← claims.claimAll i paths
      claimEach next (i + 1) rest

def rejectConflictingPaths (operations : List (Operation Condition SortKeys)) : Except UpdateError Unit :=
  (claimEach .new 0 (operations.map writtenPaths)).map fun _ => ()

/-! An update as it is parsed. -/

def findFilters (path : String) (filters : List (ArrayFilter Condition)) (identifiers : List String) :
    Except UpdateError (List (ArrayFilter Condition)) :=
  identifiers.mapM fun identifier => match filters.find? (·.identifier = identifier) with
    | some found => .ok found
    | none => .error (.filterMissing path identifier)

def isRename : OpKind Condition SortKeys → Option String
  | .rename target => some target
  | _ => none

def parseTarget (filters : List (ArrayFilter Condition)) (op : String) (target : String × Bson) :
    Except UpdateError (Operation Condition SortKeys) :=
  if touchesId target.1 then .error .idImmutable
  else do
    let kind ← parseOp lang op target.2
    let identifiers ← positionalIdentifiers target.1
    if (isRename kind).any fun other => hasPositional target.1 || hasPositional other then .error .renamePositional
    else do
      let found ← findFilters target.1 filters identifiers
      .ok ⟨target.1,kind,found⟩

def parseField (filters : List (ArrayFilter Condition)) (field : String × Bson) :
    Except UpdateError (List (Operation Condition SortKeys)) :=
  let op := String.ofList (field.1.toList.drop 1)
  match field.2 with
  | .document targets => targets.mapM (parseTarget lang filters op)
  | _ => .error (.requiresDocument op)

def parseWithFilters (doc : Document) (arrayFilters : List Document) :
    Except UpdateError (Update Condition SortKeys Stage) :=
  let hasOperators := doc.any (isOperator ·.1)
  let hasPlain := doc.any (! isOperator ·.1)
  if hasOperators && hasPlain then .error .mixesOperators
  else if !hasOperators then
    if arrayFilters ≠ [] then .error .filtersOfReplacement else .ok (.replace doc)
  else do
    let filters ← lang.parseArrayFilters arrayFilters
    let operations := (← doc.mapM (parseField lang filters)).flatten
    let used := operations.flatMap fun op => op.arrayFilters.map (·.identifier)
    match filters.find? fun f => !used.contains f.identifier with
    | some unused => .error (.filterUnused unused.identifier)
    | none => do
        rejectConflictingPaths operations
        .ok (.operators operations)

def parsePipeline (stages : List Bson) (arrayFilters : List Document) :
    Except UpdateError (Update Condition SortKeys Stage) :=
  if arrayFilters ≠ [] then .error .filtersOfPipeline
  else (lang.parseStages stages).map .pipeline

/-! Where a positional path leads in a document. -/

def joinDots : List String → List Char
  | [] => []
  | [segment] => segment.toList
  | segment :: rest => segment.toList ++ '.' :: joinDots rest

/- `join(".")`. -/
def joined (segs : List String) : String := String.ofList (joinDots segs)

/- What expanding a path reads besides the segments. -/
structure Expansion (Condition : Type) where
  filters : List (ArrayFilter Condition)
  path : String
  matched : Option ArrayPosition
  id : Option Bson

/- Which elements a segment `$[..]` selects. -/
def selects (ctx : Expansion Condition) (identifier : String) (item : Bson) : Except UpdateError Bool :=
  if identifier = "" then .ok true
  else match ctx.filters.find? (·.identifier = identifier) with
    | none => .error (.filterMissing ctx.path identifier)
    | some found => lang.matchesElement found.filter found.identifier item ctx.id

/- The elements in their order, each that is selected expanded further. -/
def expandEach (select : Bson → Except UpdateError Bool) (further : Nat → Bson → Except UpdateError (List String)) (index : Nat) :
    List Bson → Except UpdateError (List String)
  | [] => .ok []
  | item :: rest => do
      let chosen ← select item
      let here ← (if chosen then further index item else .ok [])
      let there ← expandEach select further (index + 1) rest
      .ok (here ++ there)

/- `before` are the segments walked so far. A plain segment that leads nowhere is carried along as it is. -/
def expandInto (ctx : Expansion Condition) (before : List String) (value : Option Bson) :
    List String → Except UpdateError (List String)
  | [] => .ok [joined before]
  | head :: rest =>
      if head = "$" then match ctx.matched with
        | none => .error (.dollarUnmatched ctx.path)
        | some place =>
            if place.path ≠ joined before then .error (.dollarElsewhere ctx.path (joined before) place.path)
            else match value with
              | some (.array items) => match items[place.index]? with
                  | some item => expandInto ctx (before ++ [toString place.index]) (some item) rest
                  | none => .error (.dollarOutside ctx.path (joined before) place.index)
              | _ => .error (.dollarNotArray ctx.path (joined before))
      else match positionalIdentifier head with
        | some identifier => match value with
            | some (.array items) =>
                expandEach (selects lang ctx identifier)
                  (fun index item => expandInto ctx (before ++ [toString index]) (some item) rest) 0 items
            | none => .error (.positionalAbsent ctx.path (joined before) head)
            | some _ => .error (.positionalNotArray ctx.path (joined before) head)
        | none =>
            let next := match value with
              | some (.document child) => Document.get child head
              | some (.array items) => (parseUsize head).bind (items[·]?)
              | _ => none
            expandInto ctx (before ++ [head]) next rest

def expandPositional (path : String) (filters : List (ArrayFilter Condition)) (doc : Document)
    (matched : Option ArrayPosition) : Except UpdateError (List String) :=
  match segments path with
  | [] => .ok []
  | head :: rest => expandInto lang ⟨filters,path,matched,doc.get idField⟩ [head] (doc.get head) rest

/-! Applying. -/

def groupKey (value : Bson) : Bytes := (KeyEnc.encode value).getD (lang.rawKey value)

def bitwiseStep (value : Int64 × Bool) (step : BitOp × Bson) : Except UpdateError (Int64 × Bool) := do
  let (operand,wide) ← match step.2 with
    | .int32 n => .ok (n.toInt64,value.2)
    | .int64 n => .ok (n,true)
    | other => .error (.bitOperand "" (typeNameOf other))
  match step.1 with
  | .and => .ok (value.1 &&& operand,wide)
  | .or => .ok (value.1 ||| operand,wide)
  | .xor => .ok (value.1 ^^^ operand,wide)

/- The result is narrow while every operand is. -/
def bitwise (base : Bson) (steps : List (BitOp × Bson)) (path : String) : Except UpdateError Bson := do
  let start ← match base with
    | .int32 n => .ok (n.toInt64,false)
    | .int64 n => .ok (n,true)
    | other => .error (.bitField path (typeNameOf other))
  let (value,wide) ← steps.foldlM bitwiseStep start
  if !wide && value.toInt32.toInt64 == value then .ok (.int32 value.toInt32) else .ok (.int64 value)

def asArray (current : Option Bson) (path : String) : Except UpdateError (List Bson) :=
  match current with
  | some (.array items) => .ok items
  | none => .ok []
  | some _ => .error (.notArray "" path)

def pullTarget (current : Option Bson) (op path : String) : Except UpdateError (Option (List Bson)) :=
  match current with
  | none => .ok none
  | some (.array items) => .ok (some items)
  | some _ => .error (.notArray op path)

/- The first `n`, or the last `-n`. -/
def slice (items : List Bson) (n : Int64) : List Bson :=
  if 0 ≤ n then items.take n.toInt.toNat else items.drop (items.length - n.toInt.natAbs)

def sortArray (sort : ArraySort SortKeys) (items : List Bson) : List Bson :=
  let asDocument (value : Bson) : Document := match value with
    | .document doc => doc
    | _ => []
  match sort with
  | .whole false => items.mergeSort fun a b => canonicalCmp a b ≠ .gt
  | .whole true => items.mergeSort fun a b => canonicalCmp a b ≠ .lt
  | .byFields keys => items.mergeSort fun a b => lang.compare keys (asDocument a) (asDocument b) ≠ .gt

/- Inserted at the position, clamped to the ends, then sorted, then sliced. -/
def pushed (items : List Bson) (each : PushEach SortKeys) : List Bson :=
  let place := match each.position with
    | none => items.length
    | some p => if 0 ≤ p then min p.toInt.toNat items.length else items.length - p.toInt.natAbs
  let spliced := items.take place ++ each.values ++ items.drop place
  let sorted := match each.sort with
    | none => spliced
    | some sort => sortArray lang sort spliced
  match each.slice with
  | none => sorted
  | some n => slice sorted n

/- Members are told apart by their key. -/
def addMembers (items : List Bson) (values : List Bson) : List Bson :=
  values.foldl (fun items value =>
    if items.any fun item => groupKey lang item = groupKey lang value then items else items ++ [value]) items

def setAt (doc : Document) (path : String) (value : Bson) : Except UpdateError Document :=
  match setPath doc path value with
  | (after,.ok ()) => .ok after
  | (_,.error error) => .error (.notNumeric error.segment)

def keepUnless (matched : Bson → Except UpdateError Bool) : List Bson → Except UpdateError (List Bson)
  | [] => .ok []
  | item :: rest => do
      let gone ← matched item
      let kept ← keepUnless matched rest
      .ok (if gone then kept else item :: kept)

def applyOne (path : String) (kind : OpKind Condition SortKeys) (doc : Document) (nowMs : Int64) :
    Except UpdateError Document := do
  let current := (resolve doc path).head?
  match kind with
  | .set value | .setOnInsert value => setAt doc path value
  | .unset => .ok (unsetPath doc path).1
  | .inc delta => setAt doc path (← lang.arithmetic (current.getD (.int32 0)) delta .add path)
  | .mul factor => setAt doc path (← lang.arithmetic (current.getD (.int32 0)) factor .mul path)
  | .bit steps => setAt doc path (← bitwise (current.getD (.int32 0)) steps path)
  | .min candidate =>
      if current.all fun existing => canonicalCmp candidate existing = .lt then setAt doc path candidate else .ok doc
  | .max candidate =>
      if current.all fun existing => canonicalCmp candidate existing = .gt then setAt doc path candidate else .ok doc
  | .push value => setAt doc path (.array ((← asArray current path) ++ [value]))
  | .pushEach each => setAt doc path (.array (pushed lang (← asArray current path) each))
  | .addToSet values => setAt doc path (.array (addMembers lang (← asArray current path) values))
  | .pull value => match ← pullTarget current "$pull" path with
      | none => .ok doc
      | some items => setAt doc path (.array (items.filter fun item => canonicalCmp item value ≠ .eq))
  | .pullWhere condition => match ← pullTarget current "$pull" path with
      | none => .ok doc
      | some items => setAt doc path (.array (← keepUnless (lang.matchesPullElement condition) items))
  | .pullAll values => match ← pullTarget current "$pullAll" path with
      | none => .ok doc
      | some items =>
          setAt doc path (.array (items.filter fun item => !values.any fun value => canonicalCmp item value = .eq))
  | .pop last => match current with
      | some (.array items) => setAt doc path (.array (if last then items.dropLast else items.drop 1))
      | _ => .ok doc
  | .rename target =>
      if touchesId target then .error .idRenamedOnto
      else match current with
        | none => .ok doc
        | some value => setAt (unsetPath doc path).1 target value
  | .currentDate => setAt doc path (.dateTime nowMs)

/- An operation, through the paths it was expanded to. -/
def applyEach (kind : OpKind Condition SortKeys) (nowMs : Int64) : List String → Document → Except UpdateError Document
  | [], doc => .ok doc
  | path :: rest, doc => do applyEach kind nowMs rest (← applyOne lang path kind doc nowMs)

def applyAt (op : Operation Condition SortKeys) (paths : List String) (doc : Document) (nowMs : Int64) :
    Except UpdateError Document :=
  if hasPositional op.path then applyEach lang op.kind nowMs paths doc else applyOne lang op.path op.kind doc nowMs

def isOnInsert (op : Operation Condition SortKeys) : Bool :=
  match op.kind with
  | .setOnInsert _ => true
  | _ => false

/- An operation that does not apply has no paths. -/
def concretePaths (doc : Document) (matched : Option ArrayPosition) (inserted : Bool)
    (op : Operation Condition SortKeys) : Except UpdateError (List String) :=
  if inserted || !isOnInsert op then
    if hasPositional op.path then expandPositional lang op.path op.arrayFilters doc matched else .ok [op.path]
  else .ok []

/- A rename also claims its destination. -/
def claimedPaths (op : Operation Condition SortKeys) (paths : List String) : List String :=
  match op.kind with
  | .rename target => if paths = [] then [] else paths ++ [target]
  | _ => paths

def claimConcrete (operations : List (Operation Condition SortKeys)) (concrete : List (List String)) :
    Except UpdateError Unit :=
  (claimEach .new 0 (List.zipWith claimedPaths operations concrete)).map fun _ => ()

/- One pass over the operations, in their order. -/
def applyPass (chosen : Operation Condition SortKeys → Bool) (nowMs : Int64) :
    List (Operation Condition SortKeys × List String) → Document → Except UpdateError Document
  | [], doc => .ok doc
  | (op,paths) :: rest, doc => do
      let next ← (if chosen op then applyAt lang op paths doc nowMs else .ok doc)
      applyPass chosen nowMs rest next

/- Every path is expanded against the document as it was and claimed before anything is written. -/
def applyOperators (operations : List (Operation Condition SortKeys)) (doc : Document) (nowMs : Int64) (inserted : Bool)
    (matched : Option ArrayPosition) : Except UpdateError Document :=
  let applies (op : Operation Condition SortKeys) : Bool := inserted || !isOnInsert op
  if inserted && operations.any fun op => applies op && hasMatchedPosition op.path then .error .dollarOnInsert
  else do
    let concrete ← operations.mapM (concretePaths lang doc matched inserted)
    let () ← (if operations.any fun op => hasPositional op.path then claimConcrete operations concrete else .ok ())
    let first ← applyPass lang (fun op => applies op && isOnInsert op) nowMs (operations.zip concrete) doc
    applyPass lang (fun op => applies op && !isOnInsert op) nowMs (operations.zip concrete) first

/- The other fields after the id. -/
def withIdFirst (id : Bson) (rest : Document) : Document :=
  rest.foldl (fun out field => if field.1 ≠ idField then out.insert field.1 field.2 else out) [(idField,id)]

def replaced (replacement doc : Document) : Document :=
  let start : Document := match doc.get idField with
    | some id => [(idField,id)]
    | none => []
  replacement.foldl (fun out field => if field.1 ≠ idField then out.insert field.1 field.2 else out) start

/- A stage answers exactly one document. -/
def runStages : List Stage → Document → Except UpdateError Document
  | [], doc => .ok doc
  | stage :: rest, doc => do
      match ← lang.applyStage stage doc with
      | [next] => runStages rest next
      | _ => .error .stageCount

end

/-! The equality of values: a NaN is equal to nothing, and a document's fields stand in any order. -/

def doubleEquals (x y : UInt64) : Bool :=
  match Exact.double x, Exact.double y with
  | .finite p, .finite q => decide (p = q)
  | .posInfinity, .posInfinity | .negInfinity, .negInfinity => true
  | _, _ => false

mutual

def bsonEq : Bson → Bson → Bool
  | .double x, other => match other with | .double y => doubleEquals x y | _ => false
  | .document x, other => match other with | .document y => x.length == y.length && fieldsEq x y | _ => false
  | .array x, other => match other with | .array y => itemsEq x y | _ => false
  | .javaScriptCodeWithScope c x, other => match other with
      | .javaScriptCodeWithScope d y => decide (c = d) && (x.length == y.length && fieldsEq x y)
      | _ => false
  | value, other => value.same other

def fieldsEq : List (String × Bson) → List (String × Bson) → Bool
  | [], _ => true
  | (key,value) :: rest, other => (match Document.get other key with
      | some held => bsonEq value held
      | none => false) && fieldsEq rest other

def itemsEq : List Bson → List Bson → Bool
  | [], [] => true
  | x :: xs, y :: ys => bsonEq x y && itemsEq xs ys
  | _, _ => false

end

deriving instance DecidableEq for Decimal128Id
deriving instance DecidableEq for DocId

section
variable {Condition SortKeys Stage : Type} (lang : UpdateLanguage Condition SortKeys Stage)

def sameId (was now : Bson) : Bool :=
  match DocId.tryFromBson was, DocId.tryFromBson now with
  | some x, some y => decide (x = y)
  | _, _ => false

/- The id is judged on the result alone, and stored first. -/
def applyPipeline (stages : List Stage) (doc : Document) : Except UpdateError Document := do
  let current ← runStages lang stages doc
  match doc.get idField, current.get idField with
  | none, none => .ok current
  | none, some _ => .error .idImmutable
  | some id, none => .ok (withIdFirst id current)
  | some id, some now =>
      if !bsonEq now id && !sameId id now then .error .idImmutable
      else if (current.head?.map (·.1)) ≠ some idField then .ok (withIdFirst now current)
      else .ok current

def applyTo (update : Update Condition SortKeys Stage) (doc : Document) (nowMs : Int64) (inserted : Bool)
    (matched : Option ArrayPosition) : Except UpdateError Document :=
  match update with
  | .replace replacement => .ok (replaced replacement doc)
  | .pipeline stages => applyPipeline lang stages doc
  | .operators operations => applyOperators lang operations doc nowMs inserted matched

end

end Kimmy.Query
