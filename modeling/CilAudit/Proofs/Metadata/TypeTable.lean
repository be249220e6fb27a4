import CilAudit.Metadata.TypeTable

set_option autoImplicit false

/-!
What is in the table of types, and what an entry adds to it. The table keeps its entries in the order of their
tokens, and a token that is taken cannot be entered again.
-/

namespace CilAudit

namespace TypeTable

theorem mem_of_get? {table : TypeTable} {token : Token} {t : TypeId}
    (found : table.get? token = some t) : (token, t) ∈ table.entries := by
  obtain ⟨front, back, split, -⟩ := List.lookup_eq_some_iff.mp found
  simp [split]

theorem holds_of_get? {table : TypeTable} {token : Token} {t : TypeId}
    (found : table.get? token = some t) : table.holds t = true := by
  simp only [holds, List.any_eq_true]
  exact ⟨(token, t), mem_of_get? found, by simp⟩

theorem mem_placeEntry {token : Token} {t : TypeId} {entries : List (Token × TypeId)}
    {entry : Token × TypeId} :
    entry ∈ placeEntry token t entries ↔ entry = (token, t) ∨ entry ∈ entries := by
  induction entries with
  | nil => simp [placeEntry]
  | cons first rest ih =>
    simp only [placeEntry]
    split
    · simp
    · simp only [List.mem_cons, ih]
      exact or_left_comm

section Insert

variable {table after : TypeTable} {token : Token} {t : TypeId} {fullName : String}

theorem insert_eq_ok_iff :
    table.insert token t fullName = .ok after ↔ table.get? token = none ∧
      after = ⟨placeEntry token t table.entries, table.names ++ [(fullName, token)]⟩ := by
  unfold insert
  split
  · rename_i found
    simp [found]
  · rename_i free
    simp only [free, true_and, Except.ok.injEq]
    exact eq_comm

theorem mem_entries_insert (entered : table.insert token t fullName = .ok after)
    {entry : Token × TypeId} :
    entry ∈ after.entries ↔ entry = (token, t) ∨ entry ∈ table.entries := by
  obtain ⟨-, rfl⟩ := insert_eq_ok_iff.mp entered
  exact mem_placeEntry

theorem names_insert (entered : table.insert token t fullName = .ok after) :
    after.names = table.names ++ [(fullName, token)] := by
  obtain ⟨-, rfl⟩ := insert_eq_ok_iff.mp entered
  rfl

theorem get?_insert_of_some (entered : table.insert token t fullName = .ok after) {other : Token}
    {u : TypeId} (found : table.get? other = some u) : after.get? other = some u := by
  obtain ⟨free, -⟩ := insert_eq_ok_iff.mp entered
  have apart : other ≠ token := by
    rintro rfl
    rw [free] at found
    cases found
  rw [get?_insert entered, if_neg apart, found]

end Insert

/-- The entries stand in the order of their tokens, and no token stands twice. -/
def Ascending (table : TypeTable) : Prop :=
  table.tokens.Pairwise (·.value < ·.value)

theorem lookup_ne_none_of_mem {entries : List (Token × TypeId)} {entry : Token × TypeId}
    (member : entry ∈ entries) : entries.lookup entry.1 ≠ none := by
  intro missing
  have apart := List.lookup_eq_none_iff.mp missing entry member
  simp at apart

theorem pairwise_placeEntry {token : Token} {entries : List (Token × TypeId)} (t : TypeId)
    (ascending : entries.Pairwise fun a b => a.1.value < b.1.value)
    (free : ∀ entry ∈ entries, entry.1 ≠ token) :
    (placeEntry token t entries).Pairwise fun a b => a.1.value < b.1.value := by
  induction entries with
  | nil => exact List.pairwise_singleton _ _
  | cons first rest ih =>
    obtain ⟨least, later⟩ := List.pairwise_cons.mp ascending
    simp only [placeEntry]
    split
    · rename_i before
      refine List.pairwise_cons.mpr ⟨?_, ascending⟩
      intro entry member
      rcases List.mem_cons.mp member with rfl | behind
      · exact before
      · exact UInt32.lt_trans before (least entry behind)
    · rename_i behind
      have apart : first.1.value ≠ token.value := by
        intro same
        exact free first List.mem_cons_self (congrArg Token.mk same)
      have after : first.1.value < token.value :=
        UInt32.lt_of_le_of_ne (UInt32.not_lt.mp behind) apart
      refine List.pairwise_cons.mpr ⟨?_, ih later fun entry member => free entry (.tail _ member)⟩
      intro entry member
      rcases mem_placeEntry.mp member with rfl | old
      · exact after
      · exact least entry old

theorem Ascending.insert {table after : TypeTable} {token : Token} {t : TypeId} {fullName : String}
    (ascending : table.Ascending) (entered : table.insert token t fullName = .ok after) :
    after.Ascending := by
  obtain ⟨free, rfl⟩ := insert_eq_ok_iff.mp entered
  have before : table.entries.Pairwise fun a b => a.1.value < b.1.value :=
    (List.pairwise_map (R := fun a b : Token => a.value < b.value)).mp ascending
  apply List.pairwise_map.mpr
  apply pairwise_placeEntry t before
  rintro entry member rfl
  exact lookup_ne_none_of_mem member free

end TypeTable

end CilAudit
