import CilAudit.Metadata.Graph

set_option autoImplicit false

/-!
The table of registered types: by token, in ascending order, and by the full name that each type had
when it was registered, in the order of registration.
-/

namespace CilAudit

/-- Why a type cannot be registered. -/
inductive MetadataError where
  /-- The token belongs to another type. -/
  | tokenTaken (token : Token)
  /-- No type is registered under the token. -/
  | typeMissing (token : Token)
deriving DecidableEq

def MetadataError.message : MetadataError → String
  | .tokenTaken token => "Failed to insert new type into TypeRegistry - " ++ token.text
  | .typeMissing token => "Failed to find type in TypeRegistry - " ++ token.text

structure TypeTable where
  /-- In ascending order of the tokens. -/
  entries : List (Token × TypeId) := []
  /-- In order of registration. -/
  names : List (String × Token) := []
deriving DecidableEq

namespace TypeTable

def get? (table : TypeTable) (token : Token) : Option TypeId :=
  table.entries.lookup token

/-- True if the table holds the type. -/
def holds (table : TypeTable) (t : TypeId) : Bool :=
  table.entries.any (·.2 == t)

def size (table : TypeTable) : Nat :=
  table.entries.length

def isEmpty (table : TypeTable) : Bool :=
  table.entries.isEmpty

/-- The types in ascending order of their tokens. -/
def types (table : TypeTable) : List TypeId :=
  table.entries.map (·.2)

/-- The tokens in ascending order. -/
def tokens (table : TypeTable) : List Token :=
  table.entries.map (·.1)

/-- Puts an entry before the first one with a greater token. -/
def placeEntry (token : Token) (t : TypeId) : List (Token × TypeId) → List (Token × TypeId)
  | [] => [(token, t)]
  | entry :: rest =>
    if token.value < entry.1.value then (token, t) :: entry :: rest
    else entry :: placeEntry token t rest

/-- Registers `t` under its token and its present full name. -/
def insert (table : TypeTable) (token : Token) (t : TypeId) (fullName : String) :
    Except MetadataError TypeTable :=
  match table.get? token with
  | some _ => .error (.tokenTaken token)
  | none => .ok {
      entries := placeEntry token t table.entries
      names := table.names ++ [(fullName, token)] }

/-- The tokens registered under a full name, in order of registration. -/
def tokensNamed (table : TypeTable) (fullName : String) : List Token :=
  (table.names.filter (·.1 == fullName)).map (·.2)

/-- The types registered under a full name, in order of registration. -/
def typesNamed (table : TypeTable) (fullName : String) : List TypeId :=
  (table.tokensNamed fullName).filterMap table.get?

/-- The first definition registered under a full name; bare references do not count. -/
def definition? (table : TypeTable) (fullName : String) : Option TypeId :=
  ((table.tokensNamed fullName).filter (·.isTypeDef)).findSome? table.get?

theorem lookup_placeEntry_self (token : Token) (t : TypeId) (entries : List (Token × TypeId))
    (free : entries.lookup token = none) : (placeEntry token t entries).lookup token = some t := by
  induction entries with
  | nil => simp [placeEntry]
  | cons entry rest ih =>
    obtain ⟨other, u⟩ := entry
    rw [List.lookup_cons] at free
    split at free
    · contradiction
    · rename_i apart
      simp only [placeEntry]
      split <;> simp [List.lookup_cons, apart, ih free]

theorem lookup_placeEntry_of_ne {token other : Token} (apart : other ≠ token) (t : TypeId)
    (entries : List (Token × TypeId)) :
    (placeEntry token t entries).lookup other = entries.lookup other := by
  have test : (other == token) = false := by simp [apart]
  induction entries with
  | nil => simp [placeEntry, List.lookup_cons, test]
  | cons entry rest ih =>
    obtain ⟨key, u⟩ := entry
    simp only [placeEntry]
    split
    · rw [List.lookup_cons, test]
    · rw [List.lookup_cons, List.lookup_cons, ih]

theorem insert_eq_error_iff (table : TypeTable) (token : Token) (t : TypeId) (fullName : String)
    (e : MetadataError) :
    table.insert token t fullName = .error e ↔ (table.get? token).isSome ∧ e = .tokenTaken token := by
  unfold insert
  split
  · rename_i found
    simp only [found, Option.isSome_some, true_and, Except.error.injEq]
    exact eq_comm
  · rename_i free
    simp [free]

theorem get?_insert {table after : TypeTable} {token : Token} {t : TypeId} {fullName : String}
    (done : table.insert token t fullName = .ok after) (other : Token) :
    after.get? other = if other = token then some t else table.get? other := by
  unfold insert at done
  split at done
  · contradiction
  · rename_i free
    cases done
    split
    · rename_i same
      subst same
      exact lookup_placeEntry_self other t table.entries free
    · rename_i apart
      exact lookup_placeEntry_of_ne apart t table.entries

theorem tokensNamed_insert {table after : TypeTable} {token : Token} {t : TypeId} {fullName : String}
    (done : table.insert token t fullName = .ok after) (name : String) :
    after.tokensNamed name = table.tokensNamed name ++ if fullName = name then [token] else [] := by
  unfold insert at done
  split at done
  · contradiction
  · cases done
    by_cases same : fullName = name <;> simp [tokensNamed, same]

end TypeTable

end CilAudit
