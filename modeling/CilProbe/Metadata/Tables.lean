/-
CilProbe/Metadata/Tables.lean

Metadata of a module kept in tables.  Lookups find what was listed, the latest
entry first, and rows can be defined, which then are found as well.  Defining
can be made to fail: with a number of conflicts to begin with, and for one table
always.
-/
import Std.Data.ExtHashMap
import CilProbe.Metadata.Row
import CilProbe.Metadata.View

namespace CilProbe

/-! ### Tables -/

/-- How many rows there are in the tables that rows can be defined in. -/
structure RowCounts where
  /-- References to assemblies. -/
  assemblyRefs : Nat := 1
  /-- References to types. -/
  typeRefs : Nat := 0
  /-- References to members. -/
  memberRefs : Nat := 0
  /-- Stand-alone signatures. -/
  signatures : Nat := 0
  deriving DecidableEq, Repr, Inhabited

namespace RowCounts

/-- The counts after one more row, and how many rows its table has now. -/
def add (c : RowCounts) : MetadataRow → Nat × RowCounts
  | .assemblyRef _ => (c.assemblyRefs + 1, { c with assemblyRefs := c.assemblyRefs + 1 })
  | .typeRef _ _ => (c.typeRefs + 1, { c with typeRefs := c.typeRefs + 1 })
  | .memberRef _ _ _ => (c.memberRefs + 1, { c with memberRefs := c.memberRefs + 1 })
  | .localSignature _ => (c.signatures + 1, { c with signatures := c.signatures + 1 })

end RowCounts

/-- The metadata of a module. -/
structure MetadataTables where
  /-- Full names of types. -/
  types : Std.ExtHashMap Token String := ∅
  /-- Method definitions. -/
  methods : Std.ExtHashMap Token MethodProps := ∅
  /-- Signatures of methods and member references. -/
  members : Std.ExtHashMap Token (List UInt8) := ∅
  /-- Stand-alone signatures. -/
  signatures : Std.ExtHashMap Token (List UInt8) := ∅
  /-- The reference to the core library, if there is one. -/
  core : Option Token := some ⟨0x23000001⟩
  /-- Pairs of types of which the first can stand where the second is asked
  for, if this is known. -/
  hierarchy : Option (List (String × String)) := none
  /-- How many rows there are. -/
  rows : RowCounts := {}
  /-- How many definitions will meet a conflict. -/
  conflicts : Nat := 0
  /-- A table in which nothing can be defined, and the error that says so. -/
  refusal : Option (UInt8 × Error) := none
  /-- The rows defined, in order, with their tokens. -/
  log : Array (Token × MetadataRow) := #[]

namespace MetadataTables

/-! ### Filling -/

/-- One type more. -/
def addType (t : MetadataTables) (token : Token) (name : String) : MetadataTables :=
  { t with types := t.types.insert token name }

/-- One signature of a member more. -/
def addMember (t : MetadataTables) (token : Token) (signature : List UInt8) : MetadataTables :=
  { t with members := t.members.insert token signature }

/-- One stand-alone signature more. -/
def addSignature (t : MetadataTables) (token : Token) (blob : List UInt8) : MetadataTables :=
  { t with signatures := t.signatures.insert token blob }

/-- One method more; its signature is found among those of members too, unless
there is one for its token already. -/
def addMethod (t : MetadataTables) (props : MethodProps) : MetadataTables :=
  { t with
    methods := t.methods.insert props.token props
    members := t.members.insertIfNew props.token props.signature }

/-- Types, signatures of members, stand-alone signatures and methods more. -/
def addAll (t : MetadataTables) (types : List (Token × String))
    (members signatures : List (Token × List UInt8)) (methods : List MethodProps) :
    MetadataTables :=
  let t := types.foldl (fun t (token, name) => t.addType token name) t
  let t := members.foldl (fun t (token, signature) => t.addMember token signature) t
  let t := signatures.foldl (fun t (token, blob) => t.addSignature token blob) t
  methods.foldl addMethod t

/-- Metadata that holds nothing but signatures for call instructions. -/
def ofCallSites (signatures : List (Token × List UInt8)) : MetadataTables :=
  let (standAlone, members) :=
    signatures.partition fun (token, _) => token.table == Token.standAloneSigTable
  ({} : MetadataTables).addAll [] members standAlone []

/-! ### Looking up -/

/-- Look a token up. -/
def find {α : Type} (table : Std.ExtHashMap Token α) (token : Token) : Except Error α :=
  match table[token]? with
  | some a => .ok a
  | none => .error (.tokenNotFound token)

/-- The metadata as it is now. -/
def view (t : MetadataTables) : MetadataView where
  typeName := find t.types
  methodProps := find t.methods
  memberSignature := find t.members
  standAloneSignature := find t.signatures
  coreLibrary :=
    match t.core with
    | some token => .ok token
    | none => .error (.tokenNotFound ⟨0⟩)
  hierarchy := t.hierarchy.map fun pairs source target => pairs.contains (source, target)

/-! ### Defining -/

/-- Add a row under its token, where lookups find it. -/
def addRow (t : MetadataTables) (token : Token) : MetadataRow → MetadataTables
  | .assemblyRef _ => t
  | .typeRef _ name => t.addType token name
  | .memberRef _ _ signature => t.addMember token signature
  | .localSignature blob => t.addSignature token blob

/-- Why a row cannot be defined, if there is a lasting reason. -/
def refuses (t : MetadataTables) (row : MetadataRow) : Option Error :=
  (t.refusal.filter fun (table, _) => table == row.table).map Prod.snd

/-- Define a row; the answer is its token. -/
def define (t : MetadataTables) (row : MetadataRow) : Except Error Token × MetadataTables :=
  match t.conflicts, t.refuses row with
  | conflicts + 1, _ => (.error (.emissionConflict row.subject), { t with conflicts })
  | 0, some e => (.error e, t)
  | 0, none =>
    let (count, rows) := t.rows.add row
    let token := Token.ofParts row.table count
    (.ok token, { t.addRow token row with rows, log := t.log.push (token, row) })

/-- The rows that were defined since the tables were as in `old`. -/
def definedSince (t old : MetadataTables) : List (Token × MetadataRow) :=
  t.log.toList.drop old.log.size

end MetadataTables

end CilProbe
