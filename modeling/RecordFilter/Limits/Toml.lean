import RecordFilter.Limits
import RecordFilter.Text.Utf8
import RecordFilter.Toml

/-!
# Limits as a TOML document

A document may assign any of the limits, each at most once and in any order; the others
keep their standard values.  A key that names no limit is an error.  A zero is reported
only when the document as a whole is understood, and then the first limit that is zero,
wherever it stands in the document.

What a document assigns, and how one is written, is a matter of the codec.
-/

namespace RecordFilter.Limits

/-- The value that is assigned to a limit, or else its standard value.  A value that
takes more than 64 bits is refused. -/
def assigned? (found : List Toml.Assignment) (limit : Limit) : Option UInt64 :=
  match found.find? fun a => a.key == limit.key with
  | none => some (standard.get limit)
  | some a => if a.value < UInt64.size then some (UInt64.ofNat a.value) else none

/-- The limits that a list of assignments gives. -/
def ofAssignments? (found : List Toml.Assignment) : Option Limits := do
  if found.all fun a => Limit.all.any fun limit => a.key == limit.key then
    let inputLength ← assigned? found .inputLength
    let depth ← assigned? found .depth
    let clauses ← assigned? found .clauses
    return ⟨inputLength, depth, clauses⟩
  else none

/-- The valid limits that a TOML document gives. -/
def ofToml [Toml.Codec] (document : String) : Except Error Limits :=
  match (Toml.Codec.read? document).bind ofAssignments? with
  | none => .error (.unreadableLimits "failed to parse config")
  | some l => l.validated

/-- The valid limits of a file with these bytes; `none` is a file that cannot be
read. -/
def ofFile [Toml.Codec] (content : Option (List UInt8)) : Except Error Limits :=
  match content.map Utf8.decode with
  | some (.ok text) => ofToml (String.ofList text)
  | _ => .error (.unreadableLimits "failed to read config")

/-- The assignments of all limits. -/
def assignments (l : Limits) : List Toml.Assignment :=
  Limit.all.map fun limit => ⟨limit.key, (l.get limit).toNat⟩

/-- The TOML document that assigns all limits, if the codec can write it.  Limits need not
be valid to be written. -/
def written [Toml.Codec] (l : Limits) : Except Error String :=
  match Toml.Codec.write? l.assignments with
  | none => .error (.unreadableLimits "failed to serialize config")
  | some document => .ok document

/-- The document that is written with the codec for all words, one limit to a line. -/
def toToml (l : Limits) : String := Toml.document l.assignments

end RecordFilter.Limits
